import Tempr.Support.InjectiveFold
import Tempr.Workspace.CatalogFile

/-!
# One wrong byte in a catalog file

A step of the hash multiplies by an odd number, which can be undone, so that no
later byte hides a changed one. A file with one wrong byte is discarded, unless
the byte is one of the reserved flags, which are not read.
-/

namespace Tempr.Workspace

open Tempr.Support Tempr.Services

/-! ## The hash of the body -/

/-- One step of the hash. -/
def contentStep (hash : UInt64) (byte : UInt8) : UInt64 :=
  (hash ^^^ byte.toUInt64) * 0x1000000001b3

theorem contentHash_eq (body : List UInt8) :
    contentHash body = body.foldl contentStep 0xcbf29ce484222325 :=
  rfl

/-- The multiplication of a step can be undone. -/
theorem xor_eq_of_contentStep {a b : UInt64} {x y : UInt8}
    (h : contentStep a x = contentStep b y) :
    a ^^^ x.toUInt64 = b ^^^ y.toUInt64 := by
  have hinverse : (0x1000000001b3 : UInt64) * 0xb46dd957aff6957b = 1 := by decide
  have hundone := congrArg (· * (0xb46dd957aff6957b : UInt64)) h
  simpa only [contentStep, UInt64.mul_assoc, hinverse, UInt64.mul_one] using
    hundone

theorem contentStep_injective_hash (byte : UInt8) :
    Function.Injective fun hash => contentStep hash byte :=
  fun _ _ h => (UInt64.xor_left_inj _).mp (xor_eq_of_contentStep h)

theorem contentStep_injective_byte (hash : UInt64) :
    Function.Injective (contentStep hash) :=
  fun _ _ h => UInt8.toUInt64_inj.mp
    ((UInt64.xor_right_inj _).mp (xor_eq_of_contentStep h))

theorem contentHash_set_ne {body : List UInt8} {i : ℕ} {byte : UInt8}
    (h : body.set i byte ≠ body) :
    contentHash (body.set i byte) ≠ contentHash body := by
  have hi : i < body.length := by
    by_contra hout
    exact h (List.set_eq_of_length_le (Nat.le_of_not_lt hout))
  have hbyte : byte ≠ body[i] := by
    rintro rfl
    exact h (List.set_getElem_self hi)
  rw [contentHash_eq, contentHash_eq]
  exact InjectiveFold.foldl_set_ne contentStep_injective_hash
    contentStep_injective_byte hi hbyte _

/-! ## The header -/

theorem u16FromLeBytes_inj {bytes bytes' : List UInt8} (h : bytes.length = 2)
    (h' : bytes'.length = 2)
    (heq : u16FromLeBytes bytes = u16FromLeBytes bytes') : bytes = bytes' := by
  apply LittleEndian.eq_of_ofBytes_mod_eq h h'
  have hnat := congrArg UInt16.toNat heq
  rwa [u16FromLeBytes, u16FromLeBytes, UInt16.toNat_ofNat', UInt16.toNat_ofNat'] at hnat

theorem u64FromLeBytes_inj {bytes bytes' : List UInt8} (h : bytes.length = 8)
    (h' : bytes'.length = 8)
    (heq : u64FromLeBytes bytes = u64FromLeBytes bytes') : bytes = bytes' := by
  apply LittleEndian.eq_of_ofBytes_mod_eq h h'
  have hnat := congrArg UInt64.toNat heq
  rwa [u64FromLeBytes, u64FromLeBytes, UInt64.toNat_ofNat', UInt64.toNat_ofNat'] at hnat

/-! ## One byte of a file -/

namespace FileParts

/-- The parts of the file in which the byte at `pos` is another one. -/
def set (parts : FileParts) (pos : ℕ) (byte : UInt8) : FileParts where
  magic := if pos < 4 then parts.magic.set pos byte else parts.magic
  version :=
    if 4 ≤ pos ∧ pos < 6 then parts.version.set (pos - 4) byte
    else parts.version
  flags :=
    if 6 ≤ pos ∧ pos < 8 then parts.flags.set (pos - 6) byte else parts.flags
  hash :=
    if 8 ≤ pos ∧ pos < 16 then parts.hash.set (pos - 8) byte else parts.hash
  body := if 16 ≤ pos then parts.body.set (pos - 16) byte else parts.body
  length_magic := by split <;> simp [parts.length_magic]
  length_version := by split <;> simp [parts.length_version]
  length_flags := by split <;> simp [parts.length_flags]
  length_hash := by split <;> simp [parts.length_hash]

theorem bytes_set (parts : FileParts) (pos : ℕ) (byte : UInt8) :
    (parts.set pos byte).bytes = parts.bytes.set pos byte := by
  simp only [bytes, set, List.set_append, parts.length_magic,
    parts.length_version, parts.length_flags, parts.length_hash,
    Nat.sub_sub, Nat.reduceAdd]
  rcases Nat.lt_or_ge pos 4 with h4 | h4
  · simp (disch := omega) only [if_pos, if_neg]
  rcases Nat.lt_or_ge pos 6 with h6 | h6
  · simp (disch := omega) only [if_pos, if_neg]
  rcases Nat.lt_or_ge pos 8 with h8 | h8
  · simp (disch := omega) only [if_pos, if_neg]
  rcases Nat.lt_or_ge pos 16 with h16 | h16
  · simp (disch := omega) only [if_pos, if_neg]
  · simp (disch := omega) only [if_pos, if_neg]

/-- A sound file with one wrong byte is not sound. -/
theorem not_sound_set {parts : FileParts} (hsound : parts.Sound) {pos : ℕ}
    {byte : UInt8} (hflags : ¬(6 ≤ pos ∧ pos < 8))
    (hne : (parts.set pos byte).bytes ≠ parts.bytes) :
    ¬ (parts.set pos byte).Sound := by
  rintro ⟨hmagic, hversion, hhash⟩
  apply hne
  have hversion' : (parts.set pos byte).version = parts.version :=
    u16FromLeBytes_inj (parts.set pos byte).length_version parts.length_version
      (hversion.trans hsound.2.1.symm)
  have hflags' : (parts.set pos byte).flags = parts.flags := if_neg hflags
  -- a change of the hash is seen against the body, and the other way round
  have hrest : (parts.set pos byte).hash = parts.hash ∧
      (parts.set pos byte).body = parts.body := by
    by_cases hbody : 16 ≤ pos
    · have hsame : (parts.set pos byte).hash = parts.hash :=
        if_neg fun h => by omega
      refine ⟨hsame, ?_⟩
      by_contra hchanged
      rw [hsame, hsound.2.2] at hhash
      simp only [set, if_pos hbody] at hchanged hhash
      exact contentHash_set_ne hchanged hhash.symm
    · have hsame : (parts.set pos byte).body = parts.body := if_neg hbody
      rw [hsame] at hhash
      exact ⟨u64FromLeBytes_inj (parts.set pos byte).length_hash
        parts.length_hash (hhash.trans hsound.2.2.symm), hsame⟩
  simp only [bytes, hmagic, hsound.1, hversion', hflags', hrest.1, hrest.2]

theorem sound_set_flags (parts : FileParts) {pos : ℕ} (byte : UInt8)
    (hflags : 6 ≤ pos ∧ pos < 8) :
    ((parts.set pos byte).Sound ↔ parts.Sound) ∧
      (parts.set pos byte).body = parts.body := by
  have h4 : ¬ pos < 4 := by omega
  have h6 : ¬(4 ≤ pos ∧ pos < 6) := by omega
  have h8 : ¬(8 ≤ pos ∧ pos < 16) := by omega
  have h16 : ¬ 16 ≤ pos := by omega
  simp only [Sound, set, if_neg h4, if_neg h6, if_neg h8, if_neg h16]
  exact ⟨trivial, trivial⟩

end FileParts

variable {Id Time : Type} (postcard : Postcard (CatalogSnapshot Id Time))

theorem decodeCatalog_set_flags (parts : FileParts) {pos : ℕ} {byte : UInt8}
    (hflags : 6 ≤ pos ∧ pos < 8) :
    decodeCatalog postcard (parts.set pos byte).bytes =
      decodeCatalog postcard parts.bytes := by
  obtain ⟨hsound, hbody⟩ := parts.sound_set_flags byte hflags
  rw [decodeCatalog_parts, decodeCatalog_parts, hbody]
  simp only [hsound]

/-- A file in which one byte is wrong is discarded, without an error, and the
reserved flags may be any bytes. -/
theorem decode_corrupted_catalog {snapshot : FetchedSnapshot Id Time}
    {bytes : List UInt8}
    (hwritten : encodeCatalog postcard snapshot = .ok bytes) :
    (∀ (pos : ℕ) (hpos : pos < bytes.length) (byte : UInt8), pos ≠ 6 → pos ≠ 7 →
      byte ≠ bytes[pos] →
        decodeCatalog postcard (bytes.set pos byte) = some (.ok none)) ∧
    ∀ low high : UInt8,
      decodeCatalog postcard ((bytes.set 6 low).set 7 high) =
        decodeCatalog postcard bytes := by
  obtain ⟨body, hbody⟩ : ∃ body,
      postcard.toAllocvec (.from snapshot) = .ok body := by
    cases hbody : postcard.toAllocvec (.from snapshot) with
    | ok body => exact ⟨body, rfl⟩
    | error e =>
      rw [encodeCatalog, hbody] at hwritten
      cases hwritten
  rw [encodeCatalog_eq postcard hbody, Except.ok.injEq] at hwritten
  subst hwritten
  constructor
  · intro pos hpos byte hlow hhigh hbyte
    rw [← FileParts.bytes_set, decodeCatalog_parts, if_neg]
    apply FileParts.not_sound_set (sound_partsOf body)
    · omega
    · intro hsame
      rw [FileParts.bytes_set] at hsame
      apply hbyte
      have hread : ((partsOf body).bytes.set pos byte)[pos]? = some byte :=
        List.getElem?_set_self hpos
      rw [hsame, List.getElem?_eq_getElem hpos] at hread
      exact (Option.some.inj hread).symm
  · intro low high
    rw [← FileParts.bytes_set, ← FileParts.bytes_set,
      decodeCatalog_set_flags postcard _ (by omega),
      decodeCatalog_set_flags postcard _ (by omega)]

theorem decode_corrupted_catalog_table :
    decodeCatalog tablePostcard
        ((partsOf tableBody).bytes.set 20 1) = some (.ok none) ∧
      decodeCatalog tablePostcard
        (((partsOf tableBody).bytes.set 6 1).set 7 2) =
          decodeCatalog tablePostcard (partsOf tableBody).bytes := by
  have hwritten : encodeCatalog tablePostcard tableSnapshot =
      .ok (partsOf tableBody).bytes :=
    encodeCatalog_eq tablePostcard (by simp [tablePostcard])
  have h := decode_corrupted_catalog tablePostcard hwritten
  exact ⟨h.1 20 (by decide) 1 (by decide) (by decide) (by decide), h.2 1 2⟩

end Tempr.Workspace
