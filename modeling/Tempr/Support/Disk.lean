import Mathlib.Data.List.Basic
import Mathlib.Data.Option.Basic
import Mathlib.Logic.Function.Basic

/-!
# Disks

Files as a directory of names over the contents of inodes.  A file that has been
opened is read and written by its inode, whatever becomes of its name.
-/

namespace Tempr.Support

/-- No inode has two names, and those from `next` on have never been used. -/
structure Disk (ν β : Type*) where
  dir : ν → Option ℕ
  data : ℕ → List β
  next : ℕ
  lt_next : ∀ name i, dir name = some i → i < next
  injective : ∀ a b i, dir a = some i → dir b = some i → a = b

namespace Disk

variable {ν β : Type*} {d : Disk ν β} {name a : ν} {i : ℕ}

/-- The contents of the file of a name. -/
def content (d : Disk ν β) (name : ν) : Option (List β) :=
  (d.dir name).map d.data

/-- The inode that creating a file of this name gives. -/
def inodeFor (d : Disk ν β) (name : ν) : ℕ :=
  (d.dir name).getD d.next

/-- An inode that creating `name` gives has no other name. -/
theorem eq_of_dir_inodeFor (h : d.dir a = some (d.inodeFor name)) :
    a = name := by
  unfold inodeFor at h
  cases hname : d.dir name with
  | none =>
      rw [hname] at h
      exact absurd (d.lt_next _ _ h) (Nat.lt_irrefl _)
  | some i =>
      rw [hname] at h
      exact d.injective _ _ _ h hname

/-- `bytes` over what is at `pos` and after; a gap before them is filled. -/
def overwrite [Inhabited β] (old : List β) (pos : ℕ) (bytes : List β) :
    List β :=
  (old ++ List.replicate (pos - old.length) default).take pos ++ bytes ++
    old.drop (pos + bytes.length)

theorem overwrite_take [Inhabited β] {bytes : List β} {w : ℕ}
    (hw : w ≤ bytes.length) (n : ℕ) :
    overwrite (bytes.take w) w ((bytes.drop w).take n) =
      bytes.take (w + n) := by
  have hlength : (bytes.take w).length = w := by
    rw [List.length_take, Nat.min_eq_left hw]
  have hdrop :
      (bytes.take w).drop (w + ((bytes.drop w).take n).length) = [] := by
    rw [List.drop_eq_nil_iff, hlength]
    exact Nat.le_add_right _ _
  have htake : (bytes.take w).take w = bytes.take w := by
    rw [List.take_take, Nat.min_self]
  rw [overwrite, hdrop, hlength, Nat.sub_self, List.replicate_zero,
    List.append_nil, List.append_nil, htake, ← List.take_add]

def writeAt [Inhabited β] (d : Disk ν β) (i pos : ℕ) (bytes : List β) :
    Disk ν β :=
  { d with data := Function.update d.data i (overwrite (d.data i) pos bytes) }

/-- At most `n` bytes at `pos`; none at the end of the file. -/
def readAt (d : Disk ν β) (i pos n : ℕ) : List β :=
  ((d.data i).drop pos).take n

theorem data_writeAt_self [Inhabited β] {pos : ℕ} {bytes : List β} :
    (d.writeAt i pos bytes).data i = overwrite (d.data i) pos bytes :=
  Function.update_self _ _ _

theorem data_writeAt_of_ne [Inhabited β] {j pos : ℕ} {bytes : List β}
    (h : j ≠ i) : (d.writeAt i pos bytes).data j = d.data j :=
  Function.update_of_ne h _ _

/-- A file read on from a part of it is a longer part of it. -/
theorem append_readAt {got : List β} (h : got <+: d.data i) (n : ℕ) :
    got ++ d.readAt i got.length n <+: d.data i := by
  obtain ⟨rest, hrest⟩ := h
  rw [readAt, ← hrest, List.drop_left, List.prefix_append_right_inj]
  exact List.take_prefix n rest

variable [DecidableEq ν]

/-- A file of this name, emptied if there is one already. -/
def create (d : Disk ν β) (name : ν) : Disk ν β where
  dir := Function.update d.dir name (some (d.inodeFor name))
  data := Function.update d.data (d.inodeFor name) []
  next := max d.next (d.inodeFor name + 1)
  lt_next a i h := by
    by_cases ha : a = name
    · subst ha
      rw [Function.update_self] at h
      obtain rfl := Option.some.inj h
      exact Nat.le_max_right _ _
    · rw [Function.update_of_ne ha] at h
      exact Nat.lt_of_lt_of_le (d.lt_next a i h) (Nat.le_max_left _ _)
  injective a b i ha hb := by
    have hown : ∀ c, Function.update d.dir name (some (d.inodeFor name)) c =
        some i → i = d.inodeFor name → c = name := by
      intro c hc hi
      by_contra hne
      rw [Function.update_of_ne hne, hi] at hc
      exact hne (eq_of_dir_inodeFor hc)
    by_cases hane : a = name
    · subst hane
      rw [Function.update_self] at ha
      exact (hown b hb (Option.some.inj ha).symm).symm
    · by_cases hbne : b = name
      · subst hbne
        rw [Function.update_self] at hb
        exact hown a ha (Option.some.inj hb).symm
      · rw [Function.update_of_ne hane] at ha
        rw [Function.update_of_ne hbne] at hb
        exact d.injective a b i ha hb

/-- The directory without a name. -/
def unlink (d : Disk ν β) (name : ν) : Disk ν β where
  dir := Function.update d.dir name none
  data := d.data
  next := d.next
  lt_next a i h := by
    by_cases ha : a = name
    · subst ha
      rw [Function.update_self] at h
      cases h
    · rw [Function.update_of_ne ha] at h
      exact d.lt_next a i h
  injective a b i ha hb := by
    have hkept : ∀ c, Function.update d.dir name none c = some i →
        d.dir c = some i := by
      intro c hc
      by_cases hne : c = name
      · subst hne
        rw [Function.update_self] at hc
        cases hc
      · rwa [Function.update_of_ne hne] at hc
    exact d.injective a b i (hkept a ha) (hkept b hb)

/-- The file called `old` under the name `new`, in place of what had it. -/
def move (d : Disk ν β) (old new : ν) : Disk ν β where
  dir := Function.update (d.unlink old).dir new (d.dir old)
  data := d.data
  next := d.next
  lt_next a i h := by
    by_cases ha : a = new
    · subst ha
      rw [Function.update_self] at h
      exact d.lt_next old i h
    · rw [Function.update_of_ne ha] at h
      exact (d.unlink old).lt_next a i h
  injective a b i ha hb := by
    have hother : ∀ c, (d.unlink old).dir c = some i → d.dir old ≠ some i := by
      intro c hc hold
      unfold unlink at hc
      by_cases hne : c = old
      · subst hne
        simp at hc
      · simp only [Function.update_of_ne hne] at hc
        exact hne (d.injective c old i hc hold)
    by_cases hane : a = new
    · subst hane
      by_cases hbne : b = a
      · exact hbne.symm
      · rw [Function.update_self] at ha
        rw [Function.update_of_ne hbne] at hb
        exact absurd ha (hother b hb)
    · rw [Function.update_of_ne hane] at ha
      by_cases hbne : b = new
      · subst hbne
        rw [Function.update_self] at hb
        exact absurd hb (hother a ha)
      · rw [Function.update_of_ne hbne] at hb
        exact (d.unlink old).injective a b i ha hb

/-- Fails if there is no file of that name. -/
def remove (d : Disk ν β) (name : ν) : Option (Disk ν β) :=
  if (d.dir name).isSome then some (d.unlink name) else none

def rename (d : Disk ν β) (old new : ν) : Option (Disk ν β) :=
  if (d.dir old).isSome then some (d.move old new) else none

/-! ## What operations leave alone -/

theorem dir_create_self : (d.create name).dir name = some (d.inodeFor name) :=
  Function.update_self _ _ _

theorem dir_create_of_ne (h : a ≠ name) : (d.create name).dir a = d.dir a :=
  Function.update_of_ne h _ _

theorem data_create_self : (d.create name).data (d.inodeFor name) = [] :=
  Function.update_self _ _ _

theorem data_create_of_ne (h : i ≠ d.inodeFor name) :
    (d.create name).data i = d.data i :=
  Function.update_of_ne h _ _

theorem dir_unlink_self : (d.unlink name).dir name = none :=
  Function.update_self _ _ _

theorem dir_unlink_of_ne (h : a ≠ name) : (d.unlink name).dir a = d.dir a :=
  Function.update_of_ne h _ _

theorem dir_move_new {old new : ν} : (d.move old new).dir new = d.dir old :=
  Function.update_self _ _ _

theorem dir_move_old {old new : ν} (h : old ≠ new) :
    (d.move old new).dir old = none := by
  rw [move]
  simp only [Function.update_of_ne h]
  exact dir_unlink_self

theorem dir_move_of_ne {old new : ν} (hnew : a ≠ new) (hold : a ≠ old) :
    (d.move old new).dir a = d.dir a := by
  rw [move]
  simp only [Function.update_of_ne hnew]
  exact dir_unlink_of_ne hold

theorem remove_eq_some {d' : Disk ν β} (h : d.remove name = some d') :
    d' = d.unlink name := by
  unfold remove at h
  split at h
  · exact (Option.some.inj h).symm
  · cases h

theorem rename_eq_some {d' : Disk ν β} {old new : ν}
    (h : d.rename old new = some d') : d' = d.move old new := by
  unfold rename at h
  split at h
  · exact (Option.some.inj h).symm
  · cases h

end Disk

end Tempr.Support
