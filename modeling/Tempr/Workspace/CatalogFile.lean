import Tempr.Services.SchemaRefresh
import Tempr.Support.LittleEndian

/-!
# The catalog file

A snapshot of the schema is kept in a file between sessions: a header of
sixteen bytes, and a body that `postcard` writes and reads.  The body holds a
mirror of the snapshot, because `postcard` cannot read the representation that
the snapshot has elsewhere.  Every failure to read a file is a discard.
-/

namespace Tempr.Workspace

open Tempr.Support Tempr.Services

variable {Id Time : Type}

/-- The snapshot, with the time at which it was fetched. -/
structure FetchedSnapshot (Id Time : Type) extends SchemaSnapshot Id where
  fetchedAt : Time

/-- The mirror of a schema object. -/
inductive CatalogObject (Id : Type)
  | table (id : Id) (schema name : String) (estimatedRows : Option ℕ)
  | view (id : Id) (schema name definition : String)
  | column (id parentId : Id) (name dataType : String) (nullable : Bool)
      (ordinal : ℕ) (default : Option String)
  | index (id parentTableId : Id) (name : String) (columns : List String)
      (unique : Bool) (indexType : String)
  | function (id : Id) (schema name : String)
      (parameters : List (String × String)) (returnType language : String)
  | database (id : Id) (name : String)
  deriving DecidableEq

/-- The mirror of a snapshot, which is what the body of a file holds. -/
structure CatalogSnapshot (Id Time : Type) where
  id : SchemaSnapshotId
  connectionId : ConnectionId
  version : ℕ
  fetchedAt : Time
  objects : List (CatalogObject Id)
  keywords : List String
  fingerprints : List SchemaFingerprintRecord
  deriving DecidableEq

inductive WorkspaceError
  | corrupted (reason : String)
  deriving DecidableEq, Repr

/-! ## Mirrors -/

def CatalogObject.from : SchemaObject Id → CatalogObject Id
  | .table id schema name estimatedRows => .table id schema name estimatedRows
  | .view id schema name definition => .view id schema name definition
  | .column id parentId name dataType nullable ordinal default =>
      .column id parentId name dataType nullable ordinal default
  | .index id parentTableId name columns unique indexType =>
      .index id parentTableId name columns unique indexType
  | .function id schema name parameters returnType language =>
      .function id schema name parameters returnType language
  | .database id name => .database id name

def CatalogObject.into : CatalogObject Id → SchemaObject Id
  | table id schema name estimatedRows => .table id schema name estimatedRows
  | view id schema name definition => .view id schema name definition
  | column id parentId name dataType nullable ordinal default =>
      .column id parentId name dataType nullable ordinal default
  | index id parentTableId name columns unique indexType =>
      .index id parentTableId name columns unique indexType
  | function id schema name parameters returnType language =>
      .function id schema name parameters returnType language
  | database id name => .database id name

def CatalogSnapshot.from (snapshot : FetchedSnapshot Id Time) :
    CatalogSnapshot Id Time where
  id := snapshot.id
  connectionId := snapshot.connectionId
  version := snapshot.version
  fetchedAt := snapshot.fetchedAt
  objects := snapshot.objects.map CatalogObject.from
  keywords := snapshot.keywords
  fingerprints := snapshot.fingerprints

def CatalogSnapshot.into (snapshot : CatalogSnapshot Id Time) :
    FetchedSnapshot Id Time where
  id := snapshot.id
  connectionId := snapshot.connectionId
  version := snapshot.version
  fetchedAt := snapshot.fetchedAt
  objects := snapshot.objects.map CatalogObject.into
  keywords := snapshot.keywords
  fingerprints := snapshot.fingerprints

theorem CatalogObject.into_from (o : SchemaObject Id) :
    (CatalogObject.from o).into = o := by
  cases o <;> rfl

theorem CatalogSnapshot.into_from (snapshot : FetchedSnapshot Id Time) :
    (CatalogSnapshot.from snapshot).into = snapshot := by
  have hobjects : (snapshot.objects.map CatalogObject.from).map
      CatalogObject.into = snapshot.objects := by
    rw [List.map_map]
    exact List.map_id'' CatalogObject.into_from _
  simp only [into, CatalogSnapshot.from, hobjects]

/-! ## Files -/

/-- `TCAT` -/
def catalogMagic : List UInt8 := [0x54, 0x43, 0x41, 0x54]

def catalogFormatVersion : UInt16 := 3

def headerLen : ℕ := 4 + 2 + 2 + 8

/-- A hash in the manner of FNV-1a over the body; the multiplier is another
one. -/
def contentHash (body : List UInt8) : UInt64 :=
  body.foldl (fun hash byte => (hash ^^^ byte.toUInt64) * 0x1000000001b3)
    0xcbf29ce484222325

/-- `postcard`, for one type of values, with the texts of its errors. -/
structure Postcard (α : Type) where
  toAllocvec : α → Except String (List UInt8)
  fromBytes : List UInt8 → Except String α

/-- The value is written, and read back. -/
def Postcard.RoundTrips {α : Type} (postcard : Postcard α) (value : α) : Prop :=
  ∃ bytes, postcard.toAllocvec value = .ok bytes ∧
    postcard.fromBytes bytes = .ok value

def u16ToLeBytes (n : UInt16) : List UInt8 :=
  LittleEndian.toBytes 2 n.toNat

def u16FromLeBytes (bytes : List UInt8) : UInt16 :=
  UInt16.ofNat (LittleEndian.ofBytes bytes)

def u64ToLeBytes (n : UInt64) : List UInt8 :=
  LittleEndian.toBytes 8 n.toNat

def u64FromLeBytes (bytes : List UInt8) : UInt64 :=
  UInt64.ofNat (LittleEndian.ofBytes bytes)

theorem u16FromLeBytes_toLeBytes (n : UInt16) :
    u16FromLeBytes (u16ToLeBytes n) = n := by
  rw [u16FromLeBytes, u16ToLeBytes,
    LittleEndian.ofBytes_toBytes_of_lt n.toNat_lt, UInt16.ofNat_toNat]

theorem u64FromLeBytes_toLeBytes (n : UInt64) :
    u64FromLeBytes (u64ToLeBytes n) = n := by
  rw [u64FromLeBytes, u64ToLeBytes,
    LittleEndian.ofBytes_toBytes_of_lt n.toNat_lt, UInt64.ofNat_toNat]

variable (postcard : Postcard (CatalogSnapshot Id Time))

/-- The header and the body of a snapshot. -/
def encodeCatalog (snapshot : FetchedSnapshot Id Time) :
    Except WorkspaceError (List UInt8) :=
  match postcard.toAllocvec (.from snapshot) with
  | .error e => .error (.corrupted ("catalog encode failed: " ++ e))
  | .ok body =>
      -- the two bytes of flags are reserved
      .ok (catalogMagic ++ u16ToLeBytes catalogFormatVersion ++
        u16ToLeBytes 0 ++ u64ToLeBytes (contentHash body) ++ body)

/-- The bytes from `start` to before `stop`; a range out of bounds panics. -/
def sliceOf (bytes : List UInt8) (start stop : ℕ) : Option (List UInt8) :=
  if start ≤ stop ∧ stop ≤ bytes.length then
    some ((bytes.take stop).drop start)
  else none

/-- A copy into an array of `n` bytes; other lengths panic. -/
def copyFromSlice (n : ℕ) (source : List UInt8) : Option (List UInt8) :=
  if source.length = n then some source else none

/-- The snapshot in a file, or nothing if the file is not usable.  The outer
`none` is a panic. -/
def decodeCatalog (bytes : List UInt8) :
    Option (Except WorkspaceError (Option (FetchedSnapshot Id Time))) := do
  if bytes.length < headerLen then return .ok none
  if (← sliceOf bytes 0 4) ≠ catalogMagic then return .ok none
  let low ← bytes[4]?
  let high ← bytes[5]?
  if u16FromLeBytes [low, high] ≠ catalogFormatVersion then return .ok none
  let hashBytes ← copyFromSlice 8 (← sliceOf bytes 8 16)
  let body ← sliceOf bytes headerLen bytes.length
  if contentHash body ≠ u64FromLeBytes hashBytes then return .ok none
  match postcard.fromBytes body with
  | .ok wire => return .ok (some wire.into)
  | .error _ => return .ok none

/-! ## Parts of a file -/

/-- A file that is long enough, cut into the parts of its header and its body. -/
structure FileParts where
  magic : List UInt8
  version : List UInt8
  flags : List UInt8
  hash : List UInt8
  body : List UInt8
  length_magic : magic.length = 4
  length_version : version.length = 2
  length_flags : flags.length = 2
  length_hash : hash.length = 8

def FileParts.bytes (parts : FileParts) : List UInt8 :=
  parts.magic ++ (parts.version ++ (parts.flags ++ (parts.hash ++ parts.body)))

/-- The magic and the version are those of this format, and the hash is that of
the body. -/
def FileParts.Sound (parts : FileParts) : Prop :=
  parts.magic = catalogMagic ∧
    u16FromLeBytes parts.version = catalogFormatVersion ∧
    u64FromLeBytes parts.hash = contentHash parts.body

instance (parts : FileParts) : Decidable parts.Sound := by
  unfold FileParts.Sound
  infer_instance

theorem exists_parts {bytes : List UInt8} (h : headerLen ≤ bytes.length) :
    ∃ parts : FileParts, parts.bytes = bytes := by
  rw [headerLen] at h
  have hmagic : (bytes.take 4).length = 4 := by
    rw [List.length_take]
    omega
  have hversion : ((bytes.drop 4).take 2).length = 2 := by
    rw [List.length_take, List.length_drop]
    omega
  have hflags : ((bytes.drop 6).take 2).length = 2 := by
    rw [List.length_take, List.length_drop]
    omega
  have hhash : ((bytes.drop 8).take 8).length = 8 := by
    rw [List.length_take, List.length_drop]
    omega
  refine ⟨⟨_, _, _, _, bytes.drop 16, hmagic, hversion, hflags, hhash⟩, ?_⟩
  have hjoin : ∀ start n, (bytes.drop start).take n ++ bytes.drop (start + n) =
      bytes.drop start := by
    intro start n
    rw [← List.drop_drop, List.take_append_drop]
  rw [FileParts.bytes, hjoin 8 8, hjoin 6 2, hjoin 4 2, List.take_append_drop]

theorem sliceOf_append (before middle after : List UInt8) (start stop : ℕ)
    (hstart : before.length = start) (hstop : start + middle.length = stop) :
    sliceOf (before ++ (middle ++ after)) start stop = some middle := by
  subst hstart hstop
  have hbounds : before.length ≤ before.length + middle.length ∧
      before.length + middle.length ≤
        (before ++ (middle ++ after)).length := by
    rw [List.length_append, List.length_append]
    omega
  rw [sliceOf, if_pos hbounds, List.take_length_add_append, List.drop_left,
    List.take_left]

/-- Reading a file stays within its bounds, and comes to the body when the
header is sound. -/
theorem decodeCatalog_parts (parts : FileParts) :
    decodeCatalog postcard parts.bytes =
      some (.ok (if parts.Sound then
        (postcard.fromBytes parts.body).toOption.map CatalogSnapshot.into
      else none)) := by
  obtain ⟨magic, version, flags, hash, body, hmagic, hversion, hflags, hhash⟩ :=
    parts
  obtain ⟨low, high, rfl⟩ := List.length_eq_two.1 hversion
  have hlong : ¬(magic ++ ([low, high] ++ (flags ++ (hash ++ body)))).length <
      headerLen := by
    simp only [List.length_append, hmagic, hversion, hflags, hhash, headerLen]
    omega
  have hslice : sliceOf (magic ++ ([low, high] ++ (flags ++ (hash ++ body))))
      0 4 = some magic :=
    sliceOf_append [] magic _ 0 4 rfl (by omega)
  have hlow : (magic ++ ([low, high] ++ (flags ++ (hash ++ body))))[4]? =
      some low := by
    rw [List.getElem?_append_right (by omega), hmagic]
    rfl
  have hhigh : (magic ++ ([low, high] ++ (flags ++ (hash ++ body))))[5]? =
      some high := by
    rw [List.getElem?_append_right (by omega), hmagic]
    rfl
  have hhashBytes : sliceOf (magic ++ ([low, high] ++ (flags ++ (hash ++ body))))
      8 16 = some hash := by
    have hslice := sliceOf_append (magic ++ ([low, high] ++ flags)) hash body
      8 16 (by simp [hmagic, hflags]) (by omega)
    simpa only [List.append_assoc] using hslice
  have hbody : sliceOf (magic ++ ([low, high] ++ (flags ++ (hash ++ body))))
      headerLen (magic ++ ([low, high] ++ (flags ++ (hash ++ body)))).length =
        some body := by
    have hslice := sliceOf_append (magic ++ ([low, high] ++ (flags ++ hash)))
      body [] headerLen
      (magic ++ ([low, high] ++ (flags ++ (hash ++ body)))).length
      (by simp [hmagic, hflags, hhash, headerLen])
      (by simp [hmagic, hflags, hhash, headerLen]; omega)
    simpa only [List.append_assoc, List.append_nil] using hslice
  have hcopy : copyFromSlice 8 hash = some hash := if_pos hhash
  rw [FileParts.bytes]
  simp only [decodeCatalog, if_neg hlong, hslice, hlow, hhigh, hhashBytes, hbody,
    hcopy, Option.bind_eq_bind, Option.bind_some, Option.pure_def]
  by_cases hmagic' : magic = catalogMagic
  case neg =>
    rw [if_pos hmagic', if_neg fun hsound => hmagic' hsound.1]
  by_cases hversion' : u16FromLeBytes [low, high] = catalogFormatVersion
  case neg =>
    rw [if_neg (not_not_intro hmagic'), if_pos hversion',
      if_neg fun hsound => hversion' hsound.2.1]
  by_cases hhash' : u64FromLeBytes hash = contentHash body
  case neg =>
    rw [if_neg (not_not_intro hmagic'), if_neg (not_not_intro hversion'),
      if_pos (Ne.symm hhash'), if_neg fun hsound => hhash' hsound.2.2]
  rw [if_neg (not_not_intro hmagic'), if_neg (not_not_intro hversion'),
    if_neg (not_not_intro hhash'.symm), if_pos ⟨hmagic', hversion', hhash'⟩]
  cases postcard.fromBytes body <;> rfl

theorem decodeCatalog_of_short {bytes : List UInt8}
    (h : bytes.length < headerLen) :
    decodeCatalog postcard bytes = some (.ok none) := by
  rw [decodeCatalog, if_pos h]
  rfl

/-- The parts of the file of a body. -/
def partsOf (body : List UInt8) : FileParts where
  magic := catalogMagic
  version := u16ToLeBytes catalogFormatVersion
  flags := u16ToLeBytes 0
  hash := u64ToLeBytes (contentHash body)
  body := body
  length_magic := rfl
  length_version := LittleEndian.length_toBytes _ _
  length_flags := LittleEndian.length_toBytes _ _
  length_hash := LittleEndian.length_toBytes _ _

theorem sound_partsOf (body : List UInt8) : (partsOf body).Sound :=
  ⟨rfl, u16FromLeBytes_toLeBytes _, u64FromLeBytes_toLeBytes _⟩

theorem encodeCatalog_eq {snapshot : FetchedSnapshot Id Time}
    {body : List UInt8} (h : postcard.toAllocvec (.from snapshot) = .ok body) :
    encodeCatalog postcard snapshot = .ok (partsOf body).bytes := by
  rw [encodeCatalog, h]
  simp only [FileParts.bytes, partsOf, List.append_assoc]

/-! ## Round trips -/

/-- A snapshot is read back as it was written.  Whatever the bytes are, reading
them ends without an error, and what it finds is the body of a file of this
format whose header tells the hash of the body. -/
theorem decode_encode_catalog :
    (∀ snapshot, postcard.RoundTrips (.from snapshot) → ∃ bytes,
      encodeCatalog postcard snapshot = .ok bytes ∧
        decodeCatalog postcard bytes = some (.ok (some snapshot))) ∧
    ∀ bytes, ∃ found, decodeCatalog postcard bytes = some (.ok found) ∧
      ∀ snapshot, found = some snapshot →
        ∃ parts : FileParts, parts.bytes = bytes ∧ parts.Sound ∧
          ∃ wire, postcard.fromBytes parts.body = .ok wire ∧
            wire.into = snapshot := by
  constructor
  · rintro snapshot ⟨body, hwritten, hread⟩
    refine ⟨_, encodeCatalog_eq postcard hwritten, ?_⟩
    have hbody : postcard.fromBytes (partsOf body).body =
        .ok (.from snapshot) := hread
    rw [decodeCatalog_parts, if_pos (sound_partsOf body), hbody,
      Except.toOption, Option.map_some, CatalogSnapshot.into_from]
  · intro bytes
    by_cases hshort : bytes.length < headerLen
    · refine ⟨none, decodeCatalog_of_short postcard hshort, ?_⟩
      intro snapshot hfound
      cases hfound
    · obtain ⟨parts, rfl⟩ := exists_parts (Nat.le_of_not_lt hshort)
      refine ⟨_, decodeCatalog_parts postcard parts, ?_⟩
      intro snapshot hfound
      obtain ⟨hsound, hfound⟩ := Option.ite_none_right_eq_some.1 hfound
      obtain ⟨wire, hread, hwire⟩ := Option.map_eq_some_iff.1 hfound
      refine ⟨parts, rfl, hsound, wire, ?_, hwire⟩
      cases hresult : postcard.fromBytes parts.body with
      | error e =>
          rw [hresult] at hread
          cases hread
      | ok wire' =>
          rw [hresult] at hread
          exact congrArg Except.ok (Option.some.inj hread)

/-- A snapshot of one table; its uuids are those of all zeros. -/
def tableSnapshot : FetchedSnapshot String String where
  id := ⟨"00000000-0000-0000-0000-000000000000"⟩
  connectionId := ⟨"00000000-0000-0000-0000-000000000000"⟩
  version := 7
  objects := [.table "00000000-0000-0000-0000-000000000000" "a" "b" (some 42)]
  keywords := ["if"]
  fingerprints := []
  fetchedAt := "1970-01-01T00:00:00Z"

/-- The uuid of all zeros, behind the number of its bytes. -/
def nilUuid : List UInt8 := 16 :: List.replicate 16 0

def tableBody : List UInt8 :=
  nilUuid ++ nilUuid ++ [7] ++
    [20, 49, 57, 55, 48, 45, 48, 49, 45, 48, 49, 84, 48, 48, 58, 48, 48, 58, 48,
      48, 90] ++
    [1, 0] ++ nilUuid ++ [1, 97, 1, 98, 1, 42] ++ [1, 2, 105, 102] ++ [0]

/-- What `postcard` does with the snapshot of one table. -/
def tablePostcard : Postcard (CatalogSnapshot String String) where
  toAllocvec value :=
    if value = .from tableSnapshot then .ok tableBody else .error "other value"
  fromBytes bytes :=
    if bytes = tableBody then .ok (.from tableSnapshot)
    else .error "other bytes"

theorem decode_encode_catalog_table :
    ∃ bytes, encodeCatalog tablePostcard tableSnapshot = .ok bytes ∧
      decodeCatalog tablePostcard bytes = some (.ok (some tableSnapshot)) :=
  (decode_encode_catalog tablePostcard).1 tableSnapshot
    ⟨tableBody, by simp [tablePostcard], by simp [tablePostcard]⟩

end Tempr.Workspace
