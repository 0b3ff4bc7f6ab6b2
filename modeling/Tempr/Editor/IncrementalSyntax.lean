import Tempr.Editor.History

/-!
# Incremental syntax

A buffer keeps the syntax tree of its text.  Every change is told to the tree
at once, and the text is parsed again, from the tree that it has, only when the
tree is next asked for.  What the parsing library does is a parameter; what it
relies on is that the edits it is told turn the text of the last parse into the
present one.
-/

namespace Tempr.Editor

open Tempr.Support

/-! ## Edits of a tree -/

/-- A change of a text as its syntax tree is told about it. -/
structure InputEdit where
  startByte : ℕ
  oldEndByte : ℕ
  newEndByte : ℕ
  startPosition : Point
  oldEndPosition : Point
  newEndPosition : Point
  deriving DecidableEq, Repr

/-- The operations of the parsing library that a buffer calls. -/
structure TreeSitter (Tree : Type) where
  /-- parse a text with no tree to start from -/
  parse : Rope → Tree
  /-- tell a tree about a change of its text -/
  edit : Tree → InputEdit → Tree
  /-- parse a text from a tree that has been told of the changes -/
  reparse : Tree → Rope → Tree

/-- The edit replaces one part of the old text, and gives the ends of the part
in bytes and as points of the text they are in. -/
structure InputEdit.Describes (e : InputEdit) (old new : Rope) : Prop where
  parts : ∃ a m m' b, old = a ++ m ++ b ∧ new = a ++ m' ++ b ∧
    e.startByte = Rope.lenBytes a ∧
    e.oldEndByte = Rope.lenBytes a + Rope.lenBytes m ∧
    e.newEndByte = Rope.lenBytes a + Rope.lenBytes m'
  startPosition : e.startPosition = old.pointForOffset e.startByte
  oldEndPosition : e.oldEndPosition = old.pointForOffset e.oldEndByte
  newEndPosition : e.newEndPosition = new.pointForOffset e.newEndByte

/-- The edits, one after the other, turn one text into another. -/
def Leads : Rope → List InputEdit → Rope → Prop
  | old, [], text => old = text
  | old, e :: edits, text =>
      ∃ mid, e.Describes old mid ∧ Leads mid edits text

theorem Leads.snoc {old mid text : Rope} {edits : List InputEdit}
    {e : InputEdit} (h : Leads old edits mid) (he : e.Describes mid text) :
    Leads old (edits ++ [e]) text := by
  induction edits generalizing old with
  | nil =>
      obtain rfl : old = mid := h
      exact ⟨text, he, rfl⟩
  | cons e' edits ih =>
      obtain ⟨next, he', hrest⟩ := h
      exact ⟨next, he', ih hrest⟩

/-- Parsing from a tree that has been told what turned its text into the new
one gives the tree of the new text. -/
structure TreeSitter.Incremental {Tree : Type} (ts : TreeSitter Tree) :
    Prop where
  reparse_eq : ∀ old edits text, Leads old edits text →
    ts.reparse (edits.foldl ts.edit (ts.parse old)) text = ts.parse text

/-! ## Texts with trees -/

/-- A text and its syntax tree, if it has one. -/
structure Source (Tree : Type) where
  rope : Rope
  tree : Option Tree

namespace Source

variable {Tree : Type} (ts : TreeSitter Tree)

/-- Replace a validated range and tell the tree; the removed text comes
first. -/
def replaceBytes (s : Source Tree) (range : ByteRange) (text : List Char) :
    List Char × Source Tree :=
  let startPosition := s.rope.pointForOffset range.start
  let oldEndPosition := s.rope.pointForOffset range.stop
  let (removed, rope) := s.rope.replaceBytes range text
  let newEndByte := range.start + Rope.lenBytes text
  let newEndPosition := rope.pointForOffset newEndByte
  let tree := s.tree.map fun tree =>
    ts.edit tree ⟨range.start, range.stop, newEndByte, startPosition,
      oldEndPosition, newEndPosition⟩
  (removed, ⟨rope, tree⟩)

/-- Apply edits in application order and collect their changes. -/
def applyEdits : List (Edit × ℕ) → Source Tree → List Change →
    Source Tree × List Change
  | [], s, changes => (s, changes)
  | (e, _) :: rest, s, changes =>
      if s.rope.byteSlice e.range.start e.range.stop = e.text then
        applyEdits rest s changes
      else
        let (removed, s) := s.replaceBytes ts e.range e.text
        applyEdits rest s (changes ++ [⟨e.range.start, removed, e.text⟩])

def revertChange (s : Source Tree) (c : Change) : Source Tree :=
  (s.replaceBytes ts ⟨c.start, c.start + Rope.lenBytes c.inserted⟩
    c.removed).2

def reapplyChange (s : Source Tree) (c : Change) : Source Tree :=
  (s.replaceBytes ts ⟨c.start, c.start + Rope.lenBytes c.removed⟩
    c.inserted).2

/-- The tree, if there is one, was parsed from some text and has since been told
what turned that text into the present one. -/
def Tracks (s : Source Tree) : Prop :=
  ∀ tree, s.tree = some tree → ∃ old edits,
    tree = edits.foldl ts.edit (ts.parse old) ∧ Leads old edits s.rope

variable {ts} {s : Source Tree}

@[simp] theorem replaceBytes_rope (range : ByteRange) (text : List Char) :
    (s.replaceBytes ts range text).2.rope =
      (s.rope.replaceBytes range text).2 :=
  rfl

theorem foldl_revertChange_rope (changes : List Change) :
    (changes.foldl (revertChange ts) s).rope =
      changes.foldl Buffer.revertChange s.rope := by
  induction changes generalizing s with
  | nil => rfl
  | cons c changes ih => exact ih

theorem foldl_reapplyChange_rope (changes : List Change) :
    (changes.foldl (reapplyChange ts) s).rope =
      changes.foldl Buffer.reapplyChange s.rope := by
  induction changes generalizing s with
  | nil => rfl
  | cons c changes ih => exact ih

/-- The tree takes no part in what happens to the text. -/
theorem applyEdits_rope (order : List (Edit × ℕ)) (s : Source Tree)
    (changes : List Change) :
    ((applyEdits ts order s changes).1.rope,
      (applyEdits ts order s changes).2) =
        Editor.applyEdits order s.rope changes := by
  induction order generalizing s changes with
  | nil => rfl
  | cons p order ih =>
      obtain ⟨e, i⟩ := p
      simp only [applyEdits, Editor.applyEdits]
      split
      · exact ih s changes
      · exact ih _ _

/-- A replacement of a valid range is told as it is. -/
theorem Tracks.replaceBytes (h : s.Tracks ts) {range : ByteRange}
    (hrange : range.Valid s.rope) (text : List Char) :
    (s.replaceBytes ts range text).2.Tracks ts := by
  intro tree htree
  obtain ⟨tree, hold, rfl⟩ := Option.map_eq_some_iff.1 htree
  obtain ⟨old, edits, rfl, hleads⟩ := h tree hold
  refine ⟨old, edits ++ [_], (List.foldl_concat ..).symm, hleads.snoc ?_⟩
  obtain ⟨a, m, b, hrope, ha, hm⟩ := hrange.parts
  refine ⟨⟨a, m, text, b, hrope, ?_, ha.symm, hm.symm, ?_⟩, rfl, rfl, rfl⟩
  · rw [replaceBytes_rope, Rope.replaceBytes_snd, hrope, ← ha, ← hm]
    exact replaceOf_parts Rope.utf8Size_pos a m b text
  · rw [ha]

theorem Tracks.applyEdits (h : s.Tracks ts) {order : List (Edit × ℕ)}
    (hvalid : ∀ p ∈ order, p.1.range.Valid s.rope)
    (hchain : order.Pairwise EndsBefore) (changes : List Change) :
    (applyEdits ts order s changes).1.Tracks ts := by
  induction order generalizing s changes with
  | nil => exact h
  | cons p order ih =>
      obtain ⟨e, i⟩ := p
      rw [List.forall_mem_cons] at hvalid
      rw [List.pairwise_cons] at hchain
      simp only [Source.applyEdits]
      split
      · exact ih h hvalid.2 hchain.2 changes
      · refine ih (h.replaceBytes hvalid.1 e.text) ?_ hchain.2 _
        exact fun q hq =>
          hvalid.1.replaceBytes (hvalid.2 q hq) (hchain.1 q hq) e.text

theorem Tracks.reapplyChange (h : s.Tracks ts) {c : Change}
    (hfits : c.Fits s.rope) : (s.reapplyChange ts c).Tracks ts := by
  obtain ⟨a, b, hrope, hstart⟩ := hfits
  refine h.replaceBytes (ByteRange.Valid.of_parts hrope hstart ?_) c.inserted
  rw [hstart]

theorem Tracks.revertChange (h : s.Tracks ts) {rope : Rope} {c : Change}
    (hfits : c.Fits rope) (hrope : s.rope = Buffer.reapplyChange rope c) :
    (s.revertChange ts c).Tracks ts := by
  obtain ⟨a, b, rfl, hstart⟩ := hfits
  rw [Buffer.reapplyChange_parts a b c hstart] at hrope
  refine h.replaceBytes (ByteRange.Valid.of_parts hrope hstart ?_) c.removed
  rw [hstart]

theorem Tracks.reapplyAll (h : s.Tracks ts) {changes : List Change}
    (hfit : ChangesFit s.rope changes) :
    (changes.foldl (Source.reapplyChange ts) s).Tracks ts := by
  induction changes generalizing s with
  | nil => exact h
  | cons c changes ih => exact ih (h.reapplyChange hfit.1) hfit.2

/-- Changes are taken back last first, each from the text that it left. -/
theorem Tracks.revertAll (h : s.Tracks ts) {rope : Rope}
    {changes : List Change} (hfit : ChangesFit rope changes)
    (hrope : s.rope = changes.foldl Buffer.reapplyChange rope) :
    (changes.reverse.foldl (Source.revertChange ts) s).Tracks ts := by
  induction changes generalizing rope with
  | nil => exact h
  | cons c changes ih =>
      rw [List.reverse_cons, List.foldl_append]
      refine (ih hfit.2 hrope).revertChange hfit.1 ?_
      rw [foldl_revertChange_rope, hrope]
      exact hfit.2.revert_reapply

end Source

/-! ## Buffers with trees -/

/-- A buffer with its syntax tree, if the tree has been asked for. -/
structure ParsedBuffer (Tree : Type) extends Buffer where
  tree : Option Tree

namespace ParsedBuffer

variable {Tree : Type} (ts : TreeSitter Tree)

/-- A buffer is opened without parsing its text. -/
def new (revision : ℕ) (text : Rope) : ParsedBuffer Tree :=
  { Buffer.new revision text with tree := none }

def source (b : ParsedBuffer Tree) : Source Tree := ⟨b.rope, b.tree⟩

def editInner (revision : ℕ) (b : ParsedBuffer Tree) (edits : List Edit)
    (selections : Option SelectionSnapshot) :
    ParsedBuffer Tree × Except EditError (Option ℕ) :=
  match checkRanges b.rope edits with
  | .error err => (b, .error err)
  | .ok () =>
    let order := applicationOrder edits
    match checkOverlaps order with
    | .error err => (b, .error err)
    | .ok () =>
      let (source, changes) := Source.applyEdits ts order b.source []
      if changes = [] then (b, .ok none)
      else
        ({ rope := source.rope
           history := ⟨⟨b.nextEdit, changes, selections⟩ :: b.history.undo, []⟩
           syntaxDirty := true
           nextEdit := b.nextEdit + 1
           revision := revision
           tree := source.tree },
          .ok (some b.nextEdit))

def undo (revision : ℕ) (b : ParsedBuffer Tree) :
    ParsedBuffer Tree × Option ℕ :=
  match b.history.undo with
  | [] => (b, none)
  | tx :: rest =>
      let source := tx.changes.reverse.foldl (Source.revertChange ts) b.source
      ({ b with
          rope := source.rope
          tree := source.tree
          history := ⟨rest, tx :: b.history.redo⟩
          syntaxDirty := b.syntaxDirty || !tx.changes.isEmpty
          revision := revision },
        some tx.id)

def redo (revision : ℕ) (b : ParsedBuffer Tree) :
    ParsedBuffer Tree × Option ℕ :=
  match b.history.redo with
  | [] => (b, none)
  | tx :: rest =>
      let source := tx.changes.foldl (Source.reapplyChange ts) b.source
      ({ b with
          rope := source.rope
          tree := source.tree
          history := ⟨tx :: b.history.undo, rest⟩
          syntaxDirty := b.syntaxDirty || !tx.changes.isEmpty
          revision := revision },
        some tx.id)

/-- Bring the tree up to date; was a parse needed? -/
def reparse (b : ParsedBuffer Tree) : ParsedBuffer Tree × Bool :=
  if !b.syntaxDirty then (b, false)
  else
    let tree := match b.tree with
      | some tree => ts.reparse tree b.rope
      | none => ts.parse b.rope
    ({ b with tree := some tree, syntaxDirty := false }, true)

/-- The tree, brought up to date first. -/
def syntaxTree (b : ParsedBuffer Tree) : ParsedBuffer Tree × Tree :=
  let b := (b.reparse ts).1
  match b.tree with
  | some tree => (b, tree)
  | none =>
      let tree := ts.parse []
      ({ b with tree := some tree }, tree)

/-- The tree, if it is up to date. -/
def freshSyntax (b : ParsedBuffer Tree) : Option Tree :=
  if b.syntaxDirty then none else b.tree

/-- Calls that change a buffer or its tree. -/
inductive Op where
  | text (op : Buffer.Op)
  | syntaxTree

/-- The buffer after a call on its text. -/
def performText (revision : ℕ) (b : ParsedBuffer Tree) :
    Buffer.Op → ParsedBuffer Tree
  | .edit edits => (b.editInner ts revision edits none).1
  | .editWithSelections edits before after =>
      (b.editInner ts revision edits (some ⟨before, after⟩)).1
  | .undo | .undoWithSelections => (b.undo ts revision).1
  | .redo | .redoWithSelections => (b.redo ts revision).1

/-- The buffer after a call. -/
def perform (revision : ℕ) (b : ParsedBuffer Tree) : Op → ParsedBuffer Tree
  | .text op => b.performText ts revision op
  | .syntaxTree => (b.syntaxTree ts).1

/-- A buffer opened with `text`, under any calls. -/
def system (text : Rope) : System (ParsedBuffer Tree) (ℕ × Op) where
  init b := ∃ revision, b = new revision text
  step b call b' := b' = b.perform ts call.1 call.2

/-! ## The text under the tree -/

variable {ts} {text : Rope} {b : ParsedBuffer Tree}

theorem editInner_toBuffer (revision : ℕ) (edits : List Edit)
    (selections : Option SelectionSnapshot) :
    ((b.editInner ts revision edits selections).1.toBuffer,
      (b.editInner ts revision edits selections).2) =
        b.toBuffer.editInner revision edits selections := by
  have hsame : Editor.applyEdits (applicationOrder edits) b.rope [] =
      ((Source.applyEdits ts (applicationOrder edits) b.source []).1.rope,
        (Source.applyEdits ts (applicationOrder edits) b.source []).2) :=
    (Source.applyEdits_rope (applicationOrder edits) b.source []).symm
  simp only [editInner, Buffer.editInner, hsame]
  cases checkRanges b.rope edits with
  | error err => rfl
  | ok _ =>
      cases checkOverlaps (applicationOrder edits) with
      | error err => rfl
      | ok _ =>
          dsimp only
          split <;> rfl

theorem undo_of_cons {tx : Transaction} {rest : List Transaction}
    (hstack : b.history.undo = tx :: rest) (revision : ℕ) :
    b.undo ts revision =
      let source := tx.changes.reverse.foldl (Source.revertChange ts) b.source
      ({ b with
          rope := source.rope
          tree := source.tree
          history := ⟨rest, tx :: b.history.redo⟩
          syntaxDirty := b.syntaxDirty || !tx.changes.isEmpty
          revision := revision },
        some tx.id) := by
  rw [undo, hstack]

theorem undo_of_nil (hstack : b.history.undo = []) (revision : ℕ) :
    b.undo ts revision = (b, none) := by
  rw [undo, hstack]

theorem redo_of_cons {tx : Transaction} {rest : List Transaction}
    (hstack : b.history.redo = tx :: rest) (revision : ℕ) :
    b.redo ts revision =
      let source := tx.changes.foldl (Source.reapplyChange ts) b.source
      ({ b with
          rope := source.rope
          tree := source.tree
          history := ⟨tx :: b.history.undo, rest⟩
          syntaxDirty := b.syntaxDirty || !tx.changes.isEmpty
          revision := revision },
        some tx.id) := by
  rw [redo, hstack]

theorem redo_of_nil (hstack : b.history.redo = []) (revision : ℕ) :
    b.redo ts revision = (b, none) := by
  rw [redo, hstack]

theorem undo_toBuffer (revision : ℕ) :
    ((b.undo ts revision).1.toBuffer, (b.undo ts revision).2) =
      b.toBuffer.undo revision := by
  cases hstack : b.history.undo with
  | nil => rw [undo_of_nil hstack, Buffer.undo_of_nil hstack]
  | cons tx rest =>
      rw [undo_of_cons hstack, Buffer.undo_of_cons hstack]
      simp only [Source.foldl_revertChange_rope]
      rfl

theorem redo_toBuffer (revision : ℕ) :
    ((b.redo ts revision).1.toBuffer, (b.redo ts revision).2) =
      b.toBuffer.redo revision := by
  cases hstack : b.history.redo with
  | nil => rw [redo_of_nil hstack, Buffer.redo_of_nil hstack]
  | cons tx rest =>
      rw [redo_of_cons hstack, Buffer.redo_of_cons hstack]
      simp only [Source.foldl_reapplyChange_rope]
      rfl

/-- A call on the text does to the buffer what it does without a tree. -/
theorem performText_toBuffer (b : ParsedBuffer Tree) (revision : ℕ)
    (op : Buffer.Op) :
    (b.performText ts revision op).toBuffer =
      b.toBuffer.perform revision op := by
  cases op with
  | edit edits => exact congrArg Prod.fst (editInner_toBuffer ..)
  | editWithSelections edits before after =>
      exact congrArg Prod.fst (editInner_toBuffer ..)
  | undo => exact congrArg Prod.fst (undo_toBuffer ..)
  | redo => exact congrArg Prod.fst (redo_toBuffer ..)
  | undoWithSelections =>
      rw [Buffer.perform, Buffer.undoWithSelections_fst]
      exact congrArg Prod.fst (undo_toBuffer ..)
  | redoWithSelections =>
      rw [Buffer.perform, Buffer.redoWithSelections_fst]
      exact congrArg Prod.fst (redo_toBuffer ..)

/-! ## Trees that are up to date -/

/-- The tree has been told of every change since the last parse, and a tree that
is not marked as dirty is the one of the text. -/
structure Synced (ts : TreeSitter Tree) (b : ParsedBuffer Tree) : Prop where
  tracks : b.source.Tracks ts
  fresh : b.syntaxDirty = false → b.tree = some (ts.parse b.rope)

theorem new_synced (ts : TreeSitter Tree) (revision : ℕ) (text : Rope) :
    Synced ts (new revision text) where
  tracks := by
    intro tree htree
    cases htree
  fresh hclean := by cases hclean

/-- Undo and redo of a transaction without changes leave tree and text. -/
theorem Synced.of_changes {b' : ParsedBuffer Tree} (h : Synced ts b)
    (changes : List Change) (htracks : b'.source.Tracks ts)
    (hdirty : b'.syntaxDirty = (b.syntaxDirty || !changes.isEmpty))
    (hsame : changes = [] → b'.source = b.source) : Synced ts b' := by
  refine ⟨htracks, fun hclean => ?_⟩
  rw [hdirty, Bool.or_eq_false_iff] at hclean
  have hnone : changes = [] := by simpa using hclean.2
  have htree : b'.tree = b.tree := congrArg Source.tree (hsame hnone)
  have hrope : b'.rope = b.rope := congrArg Source.rope (hsame hnone)
  rw [htree, hrope]
  exact h.fresh hclean.1

theorem Synced.editInner (h : Synced ts b) (revision : ℕ) (edits : List Edit)
    (selections : Option SelectionSnapshot) :
    Synced ts (b.editInner ts revision edits selections).1 := by
  simp only [ParsedBuffer.editInner]
  cases hranges : checkRanges b.rope edits with
  | error err => exact h
  | ok _ =>
      cases hoverlaps : checkOverlaps (applicationOrder edits) with
      | error err => exact h
      | ok _ =>
          dsimp only
          split
          · exact h
          · refine ⟨?_, fun hclean => by cases hclean⟩
            have hvalid := (checkRanges_isOk_iff b.rope edits).1
              (by rw [hranges]; rfl)
            have hordered : ∀ p ∈ applicationOrder edits,
                p.1.range.Valid b.rope :=
              fun p hp => hvalid p.1 (mem_applicationOrder hp)
            have hchain := (checkOverlaps_isOk_iff
              fun p hp => (hordered p hp).ordered).1 (by rw [hoverlaps]; rfl)
            exact h.tracks.applyEdits hordered hchain []

theorem Synced.undo (h : Synced ts b) (hb : b.toBuffer.Faithful text)
    (revision : ℕ) : Synced ts (b.undo ts revision).1 := by
  cases hstack : b.history.undo with
  | nil =>
      rw [undo_of_nil hstack]
      exact h
  | cons tx rest =>
      have hfits := hb.undo_fits
      have htext := hb.text_eq
      rw [hstack] at hfits htext
      rw [undo_of_cons hstack]
      refine h.of_changes tx.changes ?_ rfl ?_
      · exact h.tracks.revertAll hfits.1 htext
      · intro hnone
        simp only [source, hnone, List.reverse_nil, List.foldl_nil]

theorem Synced.redo (h : Synced ts b) (hb : b.toBuffer.Faithful text)
    (revision : ℕ) : Synced ts (b.redo ts revision).1 := by
  cases hstack : b.history.redo with
  | nil =>
      rw [redo_of_nil hstack]
      exact h
  | cons tx rest =>
      have hfits := hb.redo_fits
      rw [hstack] at hfits
      rw [redo_of_cons hstack]
      refine h.of_changes tx.changes ?_ rfl ?_
      · exact h.tracks.reapplyAll hfits.1
      · intro hnone
        simp only [source, hnone, List.foldl_nil]

theorem Synced.performText (h : Synced ts b) (hb : b.toBuffer.Faithful text)
    (revision : ℕ) (op : Buffer.Op) :
    Synced ts (b.performText ts revision op) := by
  cases op with
  | edit edits => exact h.editInner revision edits none
  | editWithSelections edits before after =>
      exact h.editInner revision edits (some ⟨before, after⟩)
  | undo | undoWithSelections => exact h.undo hb revision
  | redo | redoWithSelections => exact h.redo hb revision

/-- A parse from the tree gives the tree of the text. -/
theorem Synced.reparse (hts : ts.Incremental) (h : Synced ts b) :
    (b.reparse ts).1 =
      { b with tree := some (ts.parse b.rope), syntaxDirty := false } := by
  cases hdirty : b.syntaxDirty with
  | false =>
      have hfresh := h.fresh hdirty
      obtain ⟨⟨rope, history, dirty, nextEdit, revision⟩, tree⟩ := b
      replace hdirty : dirty = false := hdirty
      replace hfresh : tree = some (ts.parse rope) := hfresh
      subst hdirty hfresh
      rfl
  | true =>
      cases htree : b.tree with
      | none => simp [ParsedBuffer.reparse, hdirty, htree]
      | some tree =>
          obtain ⟨old, edits, rfl, hleads⟩ := h.tracks tree htree
          have heq := hts.reparse_eq old edits b.rope hleads
          simp [ParsedBuffer.reparse, hdirty, htree, heq]

theorem Synced.syntaxTree (hts : ts.Incremental) (h : Synced ts b) :
    b.syntaxTree ts =
      ({ b with tree := some (ts.parse b.rope), syntaxDirty := false },
        ts.parse b.rope) := by
  simp only [ParsedBuffer.syntaxTree, h.reparse hts]

theorem synced_parsed (ts : TreeSitter Tree) (b : ParsedBuffer Tree) :
    Synced ts
      { b with tree := some (ts.parse b.rope), syntaxDirty := false } where
  tracks := by
    intro tree htree
    exact ⟨b.rope, [], (Option.some.inj htree).symm, rfl⟩
  fresh _ := rfl

theorem synced_of_reachable (hts : ts.Incremental)
    (hb : (system ts text).Reachable b) :
    b.toBuffer.Faithful text ∧ Synced ts b := by
  refine System.Reachable.invariant (M := system ts text)
    (I := fun b => b.toBuffer.Faithful text ∧ Synced ts b) ?_ ?_ hb
  · rintro _ ⟨revision, rfl⟩
    exact ⟨Buffer.new_faithful revision text, new_synced ts revision text⟩
  · rintro b ⟨revision, op⟩ _ rfl ⟨hfaithful, hsynced⟩
    cases op with
    | text op =>
        refine ⟨?_, hsynced.performText hfaithful revision op⟩
        rw [perform, performText_toBuffer]
        exact hfaithful.perform revision op
    | syntaxTree =>
        rw [perform, hsynced.syntaxTree hts]
        exact ⟨⟨hfaithful.text_eq, hfaithful.undo_fits, hfaithful.redo_fits⟩,
          synced_parsed ts b⟩

/-- However a buffer has been changed, undone and parsed, the tree it gives is
the one of its text, as is a tree that it calls fresh; asking for the tree
changes neither text nor history; a tree that is not fresh has been told, since
its last parse, exactly what turned that text into this one; and keeping a tree
changes no call on the text. -/
theorem incrementalSyntax_exact (hts : ts.Incremental)
    (hb : (system ts text).Reachable b) :
    (b.syntaxTree ts).2 = ts.parse b.rope ∧
      (b.syntaxTree ts).1.freshSyntax = some (ts.parse b.rope) ∧
      (b.syntaxTree ts).1.rope = b.rope ∧
      (b.syntaxTree ts).1.history = b.history ∧
      (∀ tree, b.freshSyntax = some tree → tree = ts.parse b.rope) ∧
      (∀ tree, b.tree = some tree → ∃ old edits,
        tree = edits.foldl ts.edit (ts.parse old) ∧
          Leads old edits b.rope) ∧
      ∀ revision op, (b.performText ts revision op).toBuffer =
        b.toBuffer.perform revision op := by
  obtain ⟨-, hsynced⟩ := synced_of_reachable hts hb
  rw [hsynced.syntaxTree hts]
  refine ⟨rfl, rfl, rfl, rfl, ?_, hsynced.tracks, performText_toBuffer b⟩
  intro tree htree
  rw [freshSyntax] at htree
  split at htree
  · cases htree
  · have hclean : b.syntaxDirty = false := by
      simpa using ‹¬b.syntaxDirty = true›
    exact Option.some.inj (htree.symm.trans (hsynced.fresh hclean))

/-- A parser that cuts a text at its semicolons, always from the start. -/
def semicolonParser : TreeSitter (List (List Char)) where
  parse rope := rope.splitOn ';'
  edit tree _ := tree
  reparse _ rope := rope.splitOn ';'

/-- Parsed, typed over, and undone. -/
def editedBuffer : ParsedBuffer (List (List Char)) :=
  (((new 0 "a;b".toList).perform semicolonParser 1 .syntaxTree).perform
    semicolonParser 2 (.text (.edit [⟨⟨0, 2⟩, "é;;".toList⟩]))).perform
      semicolonParser 3 (.text .undo)

theorem editedBuffer_reachable :
    (system semicolonParser "a;b".toList).Reachable editedBuffer := by
  have hnew : (system semicolonParser "a;b".toList).Reachable
      (new 0 "a;b".toList) := System.Reachable.init ⟨0, rfl⟩
  have hparsed := hnew.step
    (l := (1, Op.syntaxTree)) (t := perform semicolonParser 1 _ _) rfl
  have htyped := hparsed.step
    (l := (2, Op.text (.edit [⟨⟨0, 2⟩, "é;;".toList⟩])))
    (t := perform semicolonParser 2 _ _) rfl
  exact htyped.step (l := (3, Op.text .undo)) rfl

theorem incrementalSyntax_exact_edited :
    (editedBuffer.syntaxTree semicolonParser).2 =
      ["a".toList, "b".toList] := by
  have hincremental : semicolonParser.Incremental := ⟨fun _ _ _ _ => rfl⟩
  exact (incrementalSyntax_exact hincremental editedBuffer_reachable).1.trans (by decide)

end ParsedBuffer

end Tempr.Editor
