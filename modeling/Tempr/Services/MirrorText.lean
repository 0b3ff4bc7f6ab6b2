import Tempr.Editor.Batch

/-!
# Replacing the text of a mirror

The intelligence service keeps a buffer of its own for every file and brings it
up to a new text with one edit: the bytes between the longest common front and
the longest common back of the two texts, each shortened until it ends between
two characters of both.
-/

namespace Tempr.Services

open Tempr.Support Tempr.Editor

/-! ## The edit -/

/-- The bytes of a text. -/
def utf8 (text : List Char) : List UInt8 :=
  text.flatMap String.utf8EncodeChar

/-- How many of the first `max` elements of two lists agree, up to the first
that do not. -/
def commonLength : ℕ → List UInt8 → List UInt8 → ℕ
  | max + 1, x :: xs, y :: ys =>
      if x = y then commonLength max xs ys + 1 else 0
  | _, _, _ => 0

/-- Step down from `n` to where `stop` holds, or to zero. -/
def stepDown (stop : ℕ → Bool) : ℕ → ℕ
  | 0 => 0
  | n + 1 => if stop (n + 1) then n + 1 else stepDown stop n

/-- A length of a front that ends between two characters of both texts. -/
def frontFits (old next : Rope) (n : ℕ) : Bool :=
  decide (old.IsCharBoundary n) && decide (next.IsCharBoundary n)

/-- A length of a back that starts between two characters of both texts. -/
def backFits (old next : Rope) (n : ℕ) : Bool :=
  decide (old.IsCharBoundary (old.lenBytes - n))
    && decide (next.IsCharBoundary (next.lenBytes - n))

/-- The lengths in bytes of what two texts have in common in front and at the
back. -/
def commonEnds (old next : Rope) : ℕ × ℕ :=
  let max := min old.lenBytes next.lenBytes
  let front := stepDown (frontFits old next)
    (commonLength max (utf8 old) (utf8 next))
  let back := stepDown (backFits old next)
    (commonLength (max - front) (utf8 old).reverse (utf8 next).reverse)
  (front, back)

/-- Apply `next` to `buffer` as one minimal replacement. -/
def replaceText (revision : ℕ) (buffer : Buffer) (next : List Char) :
    Buffer × Except EditError Unit :=
  let old := buffer.rope
  if old = next then (buffer, .ok ())
  else
    let (front, back) := commonEnds old next
    let oldEnd := old.lenBytes - back
    let newEnd := Rope.lenBytes next - back
    if front > oldEnd ∨ front > newEnd then (buffer, .ok ())
    else
      let (buffer, outcome) := buffer.edit revision
        [⟨⟨front, oldEnd⟩, Rope.byteSlice next front newEnd⟩]
      (buffer, outcome.map fun _ => ())

/-! ## Bytes and characters -/

theorem utf8_append (a b : List Char) : utf8 (a ++ b) = utf8 a ++ utf8 b :=
  List.flatMap_append

theorem length_utf8 (text : List Char) :
    (utf8 text).length = Rope.lenBytes text := by
  induction text with
  | nil => rfl
  | cons c text ih =>
      rw [utf8, List.flatMap_cons, List.length_append,
        String.length_utf8EncodeChar, Rope.lenBytes_cons, ← ih]
      rfl

/-- A text is determined by its bytes. -/
theorem utf8_injective {a b : List Char} (h : utf8 a = utf8 b) : a = b := by
  have hencoded : a.utf8Encode = b.utf8Encode := congrArg List.toByteArray h
  have hdecoded := congrArg ByteArray.utf8Decode? hencoded
  rw [List.utf8Decode?_utf8Encode, List.utf8Decode?_utf8Encode] at hdecoded
  exact congrArg Array.toList (Option.some.inj hdecoded)

theorem commonLength_le (max : ℕ) (xs ys : List UInt8) :
    commonLength max xs ys ≤ max := by
  induction max generalizing xs ys with
  | zero => simp [commonLength]
  | succ max ih =>
      cases xs with
      | nil => simp [commonLength]
      | cons x xs =>
          cases ys with
          | nil => simp [commonLength]
          | cons y ys =>
              rw [commonLength]
              split
              · exact Nat.succ_le_succ (ih xs ys)
              · exact Nat.zero_le _

/-- What lists have in common, a shorter front of them has in common too. -/
theorem take_commonLength {max n : ℕ} {xs ys : List UInt8}
    (h : n ≤ commonLength max xs ys) : xs.take n = ys.take n := by
  induction max generalizing n xs ys with
  | zero =>
      obtain rfl := Nat.le_zero.1 (h.trans (commonLength_le 0 xs ys))
      rfl
  | succ max ih =>
      cases n with
      | zero => rfl
      | succ n =>
          cases xs with
          | nil => simp [commonLength] at h
          | cons x xs =>
              cases ys with
              | nil => simp [commonLength] at h
              | cons y ys =>
                  rw [commonLength] at h
                  split at h
                  · rename_i heq
                    rw [List.take_succ_cons, List.take_succ_cons, heq,
                      ih (Nat.le_of_succ_le_succ h)]
                  · cases h

theorem stepDown_le (stop : ℕ → Bool) (n : ℕ) : stepDown stop n ≤ n := by
  induction n with
  | zero => exact Nat.le_refl 0
  | succ n ih =>
      rw [stepDown]
      split
      · exact Nat.le_refl _
      · exact ih.trans (Nat.le_succ n)

theorem stepDown_stops {stop : ℕ → Bool} (hzero : stop 0 = true) (n : ℕ) :
    stop (stepDown stop n) = true := by
  induction n with
  | zero => exact hzero
  | succ n ih =>
      rw [stepDown]
      split
      · assumption
      · exact ih

theorem frontFits_zero (old next : Rope) : frontFits old next 0 = true := by
  simp [frontFits, Rope.IsCharBoundary, isBoundary_zero]

theorem backFits_zero (old next : Rope) : backFits old next 0 = true := by
  simp only [backFits, Nat.sub_zero, Bool.and_eq_true, decide_eq_true_eq]
  exact ⟨isBoundary_span old, isBoundary_span next⟩

/-! ## What the texts have in common -/

/-- The common ends are whole characters, and do not cross in either text. -/
theorem commonEnds_parts (old next : Rope) :
    ∃ a m m' b, old = a ++ m ++ b ∧ next = a ++ m' ++ b ∧
      commonEnds old next = (Rope.lenBytes a, Rope.lenBytes b) := by
  let max := min old.lenBytes next.lenBytes
  let front := stepDown (frontFits old next)
    (commonLength max (utf8 old) (utf8 next))
  let back := stepDown (backFits old next)
    (commonLength (max - front) (utf8 old).reverse (utf8 next).reverse)
  have hfront : front ≤ commonLength max (utf8 old) (utf8 next) :=
    stepDown_le _ _
  have hback : back ≤
      commonLength (max - front) (utf8 old).reverse (utf8 next).reverse :=
    stepDown_le _ _
  have hmax : front + back ≤ min old.lenBytes next.lenBytes := by
    have h₁ := hfront.trans (commonLength_le _ _ _)
    have h₂ := hback.trans (commonLength_le _ _ _)
    change front ≤ min old.lenBytes next.lenBytes at h₁
    change back ≤ min old.lenBytes next.lenBytes - front at h₂
    omega
  have hfrontFits : frontFits old next front = true :=
    stepDown_stops (frontFits_zero old next) _
  have hbackFits : backFits old next back = true :=
    stepDown_stops (backFits_zero old next) _
  simp only [frontFits, backFits, Bool.and_eq_true, decide_eq_true_eq]
    at hfrontFits hbackFits
  obtain ⟨⟨a, r, hold, ha⟩, ⟨a', r', hnext, ha'⟩⟩ := hfrontFits
  obtain ⟨⟨x, b, hold', hx⟩, ⟨x', b', hnext', hx'⟩⟩ := hbackFits
  change Rope.lenBytes a = front at ha
  change Rope.lenBytes a' = front at ha'
  change Rope.lenBytes x = old.lenBytes - back at hx
  change Rope.lenBytes x' = next.lenBytes - back at hx'
  -- the fronts have the same bytes
  obtain rfl : a = a' := by
    have hbytes := take_commonLength hfront
    rw [hold, hnext, utf8_append, utf8_append,
      List.take_left' (by rw [length_utf8, ha]),
      List.take_left' (by rw [length_utf8, ha'])] at hbytes
    exact utf8_injective hbytes
  -- and so do the backs
  have hb : Rope.lenBytes b = back := by
    have hlen : Rope.lenBytes x + Rope.lenBytes b = old.lenBytes := by
      rw [← Rope.lenBytes_append, ← hold']
    omega
  have hb' : Rope.lenBytes b' = back := by
    have hlen : Rope.lenBytes x' + Rope.lenBytes b' = next.lenBytes := by
      rw [← Rope.lenBytes_append, ← hnext']
    omega
  obtain rfl : b = b' := by
    have hbytes := take_commonLength hback
    rw [hold', hnext', utf8_append, utf8_append, List.reverse_append,
      List.reverse_append,
      List.take_left' (by rw [List.length_reverse, length_utf8, hb]),
      List.take_left' (by rw [List.length_reverse, length_utf8, hb'])] at hbytes
    exact utf8_injective (List.reverse_injective hbytes)
  obtain ⟨m, hm, -⟩ := exists_append_of_span_le Rope.utf8Size_pos
    (hold.symm.trans hold') (by
      change Rope.lenBytes a ≤ Rope.lenBytes x
      omega)
  obtain ⟨m', hm', -⟩ := exists_append_of_span_le Rope.utf8Size_pos
    (hnext.symm.trans hnext') (by
      change Rope.lenBytes a ≤ Rope.lenBytes x'
      omega)
  refine ⟨a, m, m', b, by rw [← hm, ← hold'], by rw [← hm', ← hnext'], ?_⟩
  rw [ha, hb]
  rfl

/-- Replacing what lies between a front and a back. -/
theorem edit_parts {buffer : Buffer} {a m b : Rope} (revision : ℕ)
    (m' : List Char) (hold : buffer.rope = a ++ m ++ b) :
    ∃ id, (buffer.edit revision
        [⟨⟨Rope.lenBytes a, Rope.lenBytes a + Rope.lenBytes m⟩, m'⟩]).2
          = .ok id ∧
      (buffer.edit revision
        [⟨⟨Rope.lenBytes a, Rope.lenBytes a + Rope.lenBytes m⟩, m'⟩]).1.rope
          = a ++ m' ++ b ∧
      (m ≠ m' → id = some buffer.nextEdit) := by
  let e : Edit := ⟨⟨Rope.lenBytes a, Rope.lenBytes a + Rope.lenBytes m⟩, m'⟩
  have hacceptable : Acceptable buffer.rope [e] :=
    ⟨fun e' he' => by
      obtain rfl := List.mem_singleton.1 he'
      exact .of_parts hold rfl rfl, List.pairwise_singleton _ _⟩
  have hrope : (buffer.edit revision [e]).1.rope = a ++ m' ++ b := by
    rw [Buffer.edit, Buffer.editInner_rope hacceptable,
      ← applyEdits_eq_substitute hacceptable [], applyEdits_fst ?_]
    · change replaceOf Char.utf8Size buffer.rope _ _ m' = _
      rw [hold]
      exact replaceOf_parts Rope.utf8Size_pos a m b m'
    · intro p hp
      obtain rfl := List.mem_singleton.1 hp
      exact Nat.le_add_right _ _
  have hedit := Buffer.editInner_of_acceptable hacceptable revision none
  rw [← Buffer.edit] at hedit
  split at hedit
  · refine ⟨none, by rw [hedit], hrope, fun hne => ?_⟩
    -- nothing was changed, so the old part is the new one
    rw [hedit] at hrope
    have hsame : a ++ m ++ b = a ++ m' ++ b := hold.symm.trans hrope
    exact absurd (List.append_cancel_left (List.append_cancel_right hsame)) hne
  · exact ⟨_, by rw [hedit], hrope, fun _ => rfl⟩

/-- The edit that a replacement issues. -/
def mirrorEdit (old next : Rope) : Edit :=
  let (front, back) := commonEnds old next
  ⟨⟨front, old.lenBytes - back⟩,
    Rope.byteSlice next front (next.lenBytes - back)⟩

/-- The edit replaces what differs between a common front and a common
back. -/
theorem mirrorEdit_parts (old next : Rope) :
    ∃ a m m' b, old = a ++ m ++ b ∧ next = a ++ m' ++ b ∧
      commonEnds old next = (Rope.lenBytes a, Rope.lenBytes b) ∧
      mirrorEdit old next =
        ⟨⟨Rope.lenBytes a, Rope.lenBytes a + Rope.lenBytes m⟩, m'⟩ := by
  obtain ⟨a, m, m', b, hold, hnext, hends⟩ := commonEnds_parts old next
  have hlen : old.lenBytes - Rope.lenBytes b =
      Rope.lenBytes a + Rope.lenBytes m := by
    rw [hold, Rope.lenBytes_append, Rope.lenBytes_append]
    omega
  have hlen' : next.lenBytes - Rope.lenBytes b =
      Rope.lenBytes a + Rope.lenBytes m' := by
    rw [hnext, Rope.lenBytes_append, Rope.lenBytes_append]
    omega
  have hslice : Rope.byteSlice next (Rope.lenBytes a)
      (Rope.lenBytes a + Rope.lenBytes m') = m' := by
    rw [hnext]
    exact Rope.byteSlice_parts a m' b
  refine ⟨a, m, m', b, hold, hnext, hends, ?_⟩
  simp only [mirrorEdit, hends, hlen, hlen', hslice]

theorem replaceText_self (revision : ℕ) (buffer : Buffer) :
    replaceText revision buffer buffer.rope = (buffer, .ok ()) := by
  simp [replaceText]

/-- Texts that differ are made equal by one edit, which is never rejected. -/
theorem replaceText_of_ne {buffer : Buffer} {next : Rope}
    (hne : buffer.rope ≠ next) (revision : ℕ) :
    buffer.edit revision [mirrorEdit buffer.rope next] =
        ((replaceText revision buffer next).1, .ok (some buffer.nextEdit)) ∧
      (replaceText revision buffer next).2 = .ok () ∧
      (replaceText revision buffer next).1.rope = next := by
  obtain ⟨a, m, m', b, hold, hnext, hends, hedit⟩ :=
    mirrorEdit_parts buffer.rope next
  have hm : m ≠ m' := by
    rintro rfl
    exact hne (hold.trans hnext.symm)
  obtain ⟨id, hok, hrope, hid⟩ := edit_parts revision m' hold
  rw [← hedit] at hok hrope
  rw [hid hm] at hok
  -- the ends do not cross, so the edit is issued
  have hgoes : ¬(Rope.lenBytes a > buffer.rope.lenBytes - Rope.lenBytes b ∨
      Rope.lenBytes a > Rope.lenBytes next - Rope.lenBytes b) := by
    have hlen := congrArg Rope.lenBytes hold
    have hlen' := congrArg Rope.lenBytes hnext
    simp only [Rope.lenBytes_append] at hlen hlen'
    omega
  have hreplaced : replaceText revision buffer next =
      ((buffer.edit revision [mirrorEdit buffer.rope next]).1, .ok ()) := by
    simp only [replaceText, if_neg hne, hends, if_neg hgoes]
    simp only [mirrorEdit, hends] at hok ⊢
    rw [hok]
    rfl
  rw [hreplaced]
  exact ⟨Prod.ext rfl hok, rfl, hrope.trans hnext.symm⟩

/-- The buffer has the new text afterwards, and no edit is rejected. -/
theorem replaceText_rope (revision : ℕ) (buffer : Buffer) (next : List Char) :
    (replaceText revision buffer next).1.rope = next ∧
      (replaceText revision buffer next).2 = .ok () := by
  by_cases hsame : buffer.rope = next
  · subst hsame
    simp only [replaceText_self, and_self]
  · obtain ⟨-, hok, hrope⟩ := replaceText_of_ne hsame revision
    exact ⟨hrope, hok⟩

/-- A replacement leaves the new text with one edit, cut between characters of
both texts where the common front and back do not cross; equal texts are left
alone. -/
theorem replaceText_exact (revision : ℕ) (buffer : Buffer)
    (next : List Char) :
    (replaceText revision buffer next).1.rope = next ∧
    (replaceText revision buffer next).2 = .ok () ∧
    (buffer.rope = next →
      replaceText revision buffer next = (buffer, .ok ())) ∧
    (buffer.rope ≠ next →
      buffer.edit revision [mirrorEdit buffer.rope next] =
        ((replaceText revision buffer next).1, .ok (some buffer.nextEdit))) ∧
    (commonEnds buffer.rope next).1 + (commonEnds buffer.rope next).2 ≤
      min buffer.rope.lenBytes (Rope.lenBytes next) ∧
    ∀ text ∈ [buffer.rope, next],
      text.IsCharBoundary (commonEnds buffer.rope next).1 ∧
      text.IsCharBoundary
        (text.lenBytes - (commonEnds buffer.rope next).2) := by
  obtain ⟨hrope, hok⟩ := replaceText_rope revision buffer next
  refine ⟨hrope, hok, ?_, fun hne => (replaceText_of_ne hne revision).1, ?_⟩
  · rintro rfl
    exact replaceText_self revision buffer
  obtain ⟨a, m, m', b, hold, hnext, hends⟩ :=
    commonEnds_parts buffer.rope next
  have hcuts : ∀ m, (a ++ m ++ b).IsCharBoundary (Rope.lenBytes a) ∧
      (a ++ m ++ b).IsCharBoundary
        ((a ++ m ++ b).lenBytes - Rope.lenBytes b) := by
    intro m
    refine ⟨⟨a, m ++ b, List.append_assoc a m b, rfl⟩, a ++ m, b, rfl, ?_⟩
    change Rope.lenBytes (a ++ m) = _
    rw [Rope.lenBytes_append (a ++ m) b, Nat.add_sub_cancel]
  rw [hends, hold, hnext]
  refine ⟨?_, ?_⟩
  · simp only [Rope.lenBytes_append]
    omega
  · simp only [List.forall_mem_cons, List.not_mem_nil, false_implies,
      implies_true, and_true]
    exact ⟨hcuts m, hcuts m'⟩

end Tempr.Services
