import Tempr.Services.Query

/-!
# Streams of rows

The driver has all rows of an answer when it opens a stream on them; the stream
decodes them batch by batch.
-/

namespace Tempr.DbPostgres

open Tempr.Services (Batch ColumnSpec)

/-- The number of rows in a batch. -/
def defaultBatchSize : ℕ := 4000

/-- How a row is decoded: its cells with their types, the decoder of a cell, and
the value that stands for one that cannot be decoded. -/
structure Decoder (Row Cell Value : Type) where
  cells : Row → List Cell
  decodeValue : Row → ℕ → Cell → Except String Value
  custom : String → Value

section Streams

variable {Row Cell Value : Type}

def decodeRow (d : Decoder Row Cell Value) (row : Row) : List Value :=
  (d.cells row).mapIdx fun i cell =>
    match d.decodeValue row i cell with
    | .ok value => value
    | .error e => d.custom ("decode_error: " ++ e)

/-- The rows of an answer, and how far they have been read. -/
structure PostgresStream (Row : Type) where
  columns : List ColumnSpec
  rows : List Row
  offset : ℕ
  batchSize : ℕ
  rowsAffected : ℕ
  nextBatchIndex : ℕ

namespace PostgresStream

def fromRows (columns : List ColumnSpec) (rows : List Row) (batchSize : ℕ) :
    PostgresStream Row :=
  ⟨columns, rows, 0, batchSize, 0, 0⟩

/-- The answer of a statement without result columns. -/
def forDml (rowsAffected : ℕ) : PostgresStream Row :=
  ⟨[], [], 0, 0, rowsAffected, 0⟩

/-- Decode the next batch.  There is no way to fail. -/
def nextBatch (d : Decoder Row Cell Value) (stream : PostgresStream Row) :
    PostgresStream Row × Option (Batch Value) :=
  if stream.rows.length ≤ stream.offset then (stream, none)
  else
    let stop := min (stream.offset + stream.batchSize) stream.rows.length
    let chunk := (stream.rows.extract stream.offset stop).map (decodeRow d)
    ({ stream with
        offset := stop
        rowsAffected := stream.rowsAffected + chunk.length
        nextBatchIndex := stream.nextBatchIndex + 1 },
      some ⟨chunk, stream.nextBatchIndex⟩)

end PostgresStream

/-- A stream remembers that it has come to its end. -/
structure QueryStream (Row : Type) where
  inner : PostgresStream Row
  batchSize : ℕ
  finished : Bool

namespace QueryStream

def new (inner : PostgresStream Row) (batchSize : ℕ) : QueryStream Row :=
  ⟨inner, batchSize, false⟩

def nextBatch (d : Decoder Row Cell Value) (stream : QueryStream Row) :
    QueryStream Row × Option (Batch Value) :=
  if stream.finished then (stream, none)
  else
    match stream.inner.nextBatch d with
    | (inner, none) => ({ stream with inner := inner, finished := true }, none)
    | (inner, some batch) => ({ stream with inner := inner }, some batch)

end QueryStream

/-- What the database answers to a statement: the columns that it prepares it
with, and the rows, or how many rows it affected. -/
structure Answer (Row : Type) where
  columns : List ColumnSpec
  rows : List Row
  rowsAffected : ℕ

namespace Answer

/-- The stream that `execute` returns.  A statement without result columns has
no rows to read. -/
def stream (answer : Answer Row) : QueryStream Row :=
  if answer.columns.isEmpty then
    .new (.forDml answer.rowsAffected) defaultBatchSize
  else
    .new (.fromRows answer.columns answer.rows defaultBatchSize)
      defaultBatchSize

end Answer

/-! ## What has been read -/

/-- The batches read so far hold the rows in front of the offset. -/
def PostgresStream.HasRead (d : Decoder Row Cell Value)
    (stream : PostgresStream Row) (batches : List (Batch Value)) : Prop :=
  batches.flatMap Batch.rows =
    (stream.rows.take stream.offset).map (decodeRow d)

variable {d : Decoder Row Cell Value}

theorem Answer.stream_columns (answer : Answer Row) :
    answer.stream.inner.columns = answer.columns := by
  rw [stream]
  split
  case isTrue h => exact (List.isEmpty_iff.mp h).symm
  case isFalse => rfl

theorem Answer.stream_hasRead (answer : Answer Row) :
    answer.stream.inner.HasRead d [] := by
  rw [stream]
  split <;> rfl

theorem Answer.stream_finished (answer : Answer Row) :
    answer.stream.finished = false := by
  rw [stream]
  split <;> rfl

/-- A batch is what lies between two offsets; no batch is left at the end. -/
theorem PostgresStream.nextBatch_hasRead {stream stream' : PostgresStream Row}
    {reply : Option (Batch Value)} {batches : List (Batch Value)}
    (h : stream.HasRead d batches)
    (hnext : stream.nextBatch d = (stream', reply)) :
    stream'.columns = stream.columns ∧ stream'.rows = stream.rows ∧
      stream'.HasRead d (batches ++ reply.toList) ∧
      (reply = none →
        batches.flatMap Batch.rows = stream.rows.map (decodeRow d)) := by
  rw [nextBatch] at hnext
  split at hnext
  case isTrue hend =>
    obtain ⟨rfl, rfl⟩ := Prod.mk.inj hnext
    refine ⟨rfl, rfl, by simpa using h, fun _ => ?_⟩
    rw [h, List.take_of_length_le hend]
  case isFalse hmore =>
    obtain ⟨rfl, rfl⟩ := Prod.mk.inj hnext
    refine ⟨rfl, rfl, ?_, fun hnone => by cases hnone⟩
    simp only [HasRead, Option.toList_some, List.flatMap_append,
      List.flatMap_cons, List.flatMap_nil, List.append_nil]
    rw [h, ← List.map_append]
    congr 1
    have hstop : stream.offset +
        (min (stream.offset + stream.batchSize) stream.rows.length -
          stream.offset) =
        min (stream.offset + stream.batchSize) stream.rows.length := by
      omega
    rw [List.extract_eq_take_drop, ← List.take_add, hstop]

theorem QueryStream.nextBatch_hasRead {stream stream' : QueryStream Row}
    {reply : Option (Batch Value)} {batches : List (Batch Value)}
    (h : stream.inner.HasRead d batches) (hfinished : stream.finished = false)
    (hnext : stream.nextBatch d = (stream', reply)) :
    stream'.inner.columns = stream.inner.columns ∧
      stream'.inner.rows = stream.inner.rows ∧
      stream'.inner.HasRead d (batches ++ reply.toList) ∧
      (reply = none → batches.flatMap Batch.rows =
        stream.inner.rows.map (decodeRow d)) ∧
      (reply ≠ none → stream'.finished = false) := by
  rw [nextBatch, if_neg (by simp [hfinished])] at hnext
  rcases hinner : stream.inner.nextBatch d with ⟨inner, _ | batch⟩
  · have hread := PostgresStream.nextBatch_hasRead h hinner
    rw [hinner] at hnext
    obtain ⟨rfl, rfl⟩ := Prod.mk.inj hnext
    exact ⟨hread.1, hread.2.1, hread.2.2.1, hread.2.2.2,
      fun hnone => absurd rfl hnone⟩
  · have hread := PostgresStream.nextBatch_hasRead h hinner
    rw [hinner] at hnext
    obtain ⟨rfl, rfl⟩ := Prod.mk.inj hnext
    exact ⟨hread.1, hread.2.1, hread.2.2.1, hread.2.2.2, fun _ => hfinished⟩

end Streams

end Tempr.DbPostgres
