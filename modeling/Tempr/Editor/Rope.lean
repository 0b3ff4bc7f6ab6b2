import Tempr.Support.Weighted
import Mathlib.Data.List.Count

/-!
# Rope text

The buffer keeps its text in a rope addressed by characters, while every
offset of its interface counts UTF-8 bytes.  A rope is modelled by its list of
characters, and the operations of the rope library that the editor calls are
given here with the meaning that library documents.  A line ends at a line
feed only: the rope is built without the wider line break features.

Operations that the library rejects with a panic outside their domain are
total here; the editor checks its ranges before it calls them.
-/

namespace Tempr.Editor

open Tempr.Support

/-- The text of a rope. -/
abbrev Rope := List Char

namespace Rope

/-- UTF-8 length of a text. -/
def lenBytes (rope : Rope) : ℕ := span Char.utf8Size rope

@[simp] theorem lenBytes_nil : lenBytes [] = 0 := rfl

@[simp] theorem lenBytes_cons (c : Char) (a : Rope) :
    lenBytes (c :: a) = c.utf8Size + lenBytes a :=
  span_cons c a

@[simp] theorem lenBytes_append (a b : Rope) :
    lenBytes (a ++ b) = lenBytes a + lenBytes b :=
  span_append a b

theorem utf8Size_pos (c : Char) : 0 < c.utf8Size := Char.utf8Size_pos c

theorem lenBytes_pos {a : Rope} (h : a ≠ []) : 0 < lenBytes a := by
  rw [Nat.pos_iff_ne_zero, lenBytes, Ne, span_eq_zero_iff utf8Size_pos]
  exact h

/-- Index of the character that contains a byte. -/
def byteToChar (rope : Rope) (byte : ℕ) : ℕ := indexOf Char.utf8Size rope byte

/-- Byte at which a character starts. -/
def charToByte (rope : Rope) (char : ℕ) : ℕ := offsetOf Char.utf8Size rope char

/-- Characters `start..stop`. -/
def slice (rope : Rope) (start stop : ℕ) : List Char :=
  (rope.take stop).drop start

/-- Remove characters `start..stop`. -/
def remove (rope : Rope) (start stop : ℕ) : Rope :=
  rope.take start ++ rope.drop stop

/-- Insert a text before character `start`. -/
def insert (rope : Rope) (start : ℕ) (text : List Char) : Rope :=
  rope.take start ++ text ++ rope.drop start

/-- Bytes `start..stop`. -/
def byteSlice (rope : Rope) (start stop : ℕ) : List Char :=
  slice rope (byteToChar rope start) (byteToChar rope stop)

/-- Number of lines; a trailing line feed starts a new, empty line. -/
def lenLines (rope : Rope) : ℕ := rope.count '\n' + 1

/-- Line that contains a byte. -/
def byteToLine (rope : Rope) (byte : ℕ) : ℕ :=
  (rope.take (byteToChar rope byte)).count '\n'

/-- Byte at which a line starts; the end of the text past the last line. -/
def lineToByte : Rope → ℕ → ℕ
  | _, 0 => 0
  | [], _ + 1 => 0
  | c :: rope, line + 1 =>
      c.utf8Size + lineToByte rope (if c = '\n' then line else line + 1)

/-- A byte offset that falls between two characters. -/
abbrev IsCharBoundary (rope : Rope) (byte : ℕ) : Prop :=
  IsBoundary Char.utf8Size rope byte

theorem charToByte_byteToChar_eq_iff (rope : Rope) (byte : ℕ) :
    charToByte rope (byteToChar rope byte) = byte ↔
      IsCharBoundary rope byte :=
  offsetOf_indexOf_eq_iff utf8Size_pos rope byte

instance (rope : Rope) (byte : ℕ) : Decidable (IsCharBoundary rope byte) :=
  decidable_of_iff _ (charToByte_byteToChar_eq_iff rope byte)

theorem byteToChar_append (a b : Rope) :
    byteToChar (a ++ b) (lenBytes a) = a.length :=
  indexOf_append_span utf8Size_pos a b

/-- Three parts of a rope cut at two ordered character boundaries. -/
theorem exists_parts {rope : Rope} {start stop : ℕ}
    (hstart : IsCharBoundary rope start) (hstop : IsCharBoundary rope stop)
    (hle : start ≤ stop) :
    ∃ a m b, rope = a ++ m ++ b ∧ lenBytes a = start ∧
      lenBytes a + lenBytes m = stop :=
  exists_three_parts utf8Size_pos hstart hstop hle

theorem byteSlice_parts (a m b : Rope) :
    byteSlice (a ++ m ++ b) (lenBytes a) (lenBytes a + lenBytes m) = m :=
  sliceOf_parts utf8Size_pos a m b

end Rope

end Tempr.Editor
