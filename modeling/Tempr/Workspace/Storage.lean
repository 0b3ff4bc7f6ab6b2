import Tempr.Support.AtomicReplace
import Tempr.Workspace.CatalogFile

/-!
# Storage

The files of a workspace: its manifest, and the catalog cache of each of its
connections.  Both are written to a temporary file first, which is then renamed.
Calls run side by side, each of them one system call after another.
-/

namespace Tempr.Workspace

open Tempr.Support Tempr.Services

/-! ## Paths -/

/-- The components of a path. -/
abbrev Path := List String

def Path.fileName (path : Path) : String :=
  path.getLast?.getD ""

def Path.withFileName (path : Path) (name : String) : Path :=
  path.dropLast ++ [name]

/-- A uuid by its text, which has digits and hyphens only. -/
structure Uuid where
  text : String
  noDot : '.' ∉ text.toList

instance : DecidableEq Uuid := fun a b =>
  decidable_of_iff (a.text = b.text) (by cases a; cases b; simp)

structure FileCatalogCache where
  path : Path

structure FileSystemStorage where
  workspacePath : Path

namespace FileSystemStorage

def manifestPath (storage : FileSystemStorage) : Path :=
  storage.workspacePath ++ ["workspace.toml"]

def manifestTmpPath (storage : FileSystemStorage) : Path :=
  storage.workspacePath ++ ["workspace.toml.tmp"]

def temprDir (storage : FileSystemStorage) : Path :=
  storage.workspacePath ++ [".tempr"]

def catalogCache (storage : FileSystemStorage) (connection : ConnectionId) :
    FileCatalogCache where
  path := storage.temprDir ++ ["cache"] ++ ["catalog"] ++
    [connection.text ++ ".tcat"]

end FileSystemStorage

/-! ## Catalog caches -/

/-- The files that this program writes before it renames them. -/
def IsTmp (path : Path) : Prop :=
  ".tmp".toList <:+ path.fileName.toList

instance : DecidablePred IsTmp := fun path => by
  unfold IsTmp
  infer_instance

namespace FileCatalogCache

variable {Id Time : Type} (postcard : Postcard (CatalogSnapshot Id Time))

def tmp (cache : FileCatalogCache) (uuid : Uuid) : Path :=
  cache.path.withFileName (cache.path.fileName ++ "." ++ uuid.text ++ ".tmp")

/-- What is written, and where.  The directory that is created first is the
parent of the path. -/
def save (cache : FileCatalogCache) (snapshot : FetchedSnapshot Id Time)
    (uuid : Uuid) : Except WorkspaceError (FileReplacement Path UInt8) := do
  let bytes ← encodeCatalog postcard snapshot
  return {
    tmp := cache.tmp uuid
    dst := cache.path
    bytes := bytes
    createsDirs := true
    cleansUp := true }

/-- What comes of reading the file.  A file that cannot be read is as good as
none; the outer `none` is a panic. -/
def load : ReadResult UInt8 →
    Option (Except WorkspaceError (Option (FetchedSnapshot Id Time)))
  | .found bytes => decodeCatalog postcard bytes
  | .notFound => some (.ok none)
  | .failed => some (.ok none)

end FileCatalogCache

/-! ## Manifests -/

/-- `toml`, for one type of values, with the texts of its errors. -/
structure Toml (α : Type) where
  toStringPretty : α → Except String String
  fromStr : String → Except String α

/-- The value is written, and read back. -/
def Toml.RoundTrips {α : Type} (toml : Toml α) (value : α) : Prop :=
  ∃ text, toml.toStringPretty value = .ok text ∧ toml.fromStr text = .ok value

/-- The errors of a manifest. -/
inductive ManifestError
  | notFound (path : Path)
  | corrupted (reason : String)
  | io
  deriving DecidableEq

def asBytes (text : String) : List UInt8 :=
  text.toUTF8.data.toList

def fromUtf8 (bytes : List UInt8) : Option String :=
  String.fromUTF8? ⟨bytes.toArray⟩

namespace FileSystemStorage

variable {Manifest : Type} (toml : Toml Manifest)
  (utf8Error : List UInt8 → String)

/-- What is written, and where. -/
def saveManifest (storage : FileSystemStorage) (manifest : Manifest) :
    Except ManifestError (FileReplacement Path UInt8) :=
  match toml.toStringPretty manifest with
  | .error e => .error (.corrupted ("failed to serialise manifest: " ++ e))
  | .ok text => .ok {
      tmp := storage.manifestTmpPath
      dst := storage.manifestPath
      bytes := asBytes text
      createsDirs := false
      cleansUp := false }

/-- What comes of reading the file. -/
def loadManifest (storage : FileSystemStorage) :
    ReadResult UInt8 → Except ManifestError Manifest
  | .notFound => .error (.notFound storage.manifestPath)
  | .failed => .error .io
  | .found bytes =>
      match fromUtf8 bytes with
      | none => .error (.corrupted
          ("workspace.toml is not valid UTF-8: " ++ utf8Error bytes))
      | some text =>
          match toml.fromStr text with
          | .error e =>
              .error (.corrupted ("workspace.toml parse error: " ++ e))
          | .ok manifest => .ok manifest

end FileSystemStorage

/-! ## Calls side by side -/

inductive StorageCall (Id Time Manifest : Type)
  | saveCatalog (connection : ConnectionId)
      (snapshot : FetchedSnapshot Id Time) (uuid : Uuid)
  | loadCatalog (connection : ConnectionId)
  | saveManifest (manifest : Manifest)
  | loadManifest

/-- What the code outside is: `postcard` and `toml`. -/
structure Formats (Id Time Manifest : Type) where
  postcard : Postcard (CatalogSnapshot Id Time)
  toml : Toml Manifest

/-- The files, and the calls that have come to them; the job of each is at the
same place. -/
structure Storage (Id Time Manifest : Type) where
  files : Files Path UInt8
  calls : List (StorageCall Id Time Manifest)

namespace Storage

inductive Label (Id Time Manifest : Type)
  | call (call : StorageCall Id Time Manifest)
  | run (j n : ℕ)
  | fail (j : ℕ)
  | stop (j : ℕ)

variable {Id Time Manifest : Type} (formats : Formats Id Time Manifest)
  (storage : FileSystemStorage)

/-- What a call does to the files, unless it returns before it comes to them. -/
def plan : StorageCall Id Time Manifest →
    Option (FileReplacement Path UInt8 ⊕ Path)
  | .saveCatalog connection snapshot uuid =>
      ((storage.catalogCache connection).save formats.postcard snapshot
        uuid).toOption.map .inl
  | .loadCatalog connection =>
      some (.inr (storage.catalogCache connection).path)
  | .saveManifest manifest =>
      (storage.saveManifest formats.toml manifest).toOption.map .inl
  | .loadManifest => some (.inr storage.manifestPath)

def startOf : FileReplacement Path UInt8 ⊕ Path → Files.Label Path UInt8
  | .inl r => .replace r
  | .inr name => .read name

def next (s : Storage Id Time Manifest) :
    Label Id Time Manifest → Option (Storage Id Time Manifest)
  | .call call =>
      match plan formats storage call with
      | none => some s
      | some p => (s.files.next (startOf p)).map fun files =>
          ⟨files, s.calls ++ [call]⟩
  | .run j n => (s.files.next (.run j n)).map fun files => ⟨files, s.calls⟩
  | .fail j => (s.files.next (.fail j)).map fun files => ⟨files, s.calls⟩
  | .stop j => (s.files.next (.stop j)).map fun files => ⟨files, s.calls⟩

/-- Any disk, and no calls. -/
def system : System (Storage Id Time Manifest) (Label Id Time Manifest) :=
  .ofNext (fun s => s.files.jobs = [] ∧ s.files.stopped = [] ∧ s.calls = [])
    (next formats storage)

/-- No uuid comes twice. -/
def Fresh (s : Storage Id Time Manifest) (l : Label Id Time Manifest) : Prop :=
  ∀ connection snapshot uuid,
    l = .call (.saveCatalog connection snapshot uuid) →
      ∀ connection' snapshot',
        StorageCall.saveCatalog connection' snapshot' uuid ∉ s.calls

/-- The manifest is not saved by two calls at a time: none creates the temporary
file while another, which has not stopped, is at work on it. -/
def Alone (s : Storage Id Time Manifest) (l : Label Id Time Manifest) : Prop :=
  ∀ j, (l = .fail j ∨ ∃ n, l = .run j n) →
    ∀ r, s.files.jobs[j]? = some (.replacing r .create) →
      r.tmp = storage.manifestTmpPath →
        ∀ k job, k ≠ j → k ∉ s.files.stopped → s.files.jobs[k]? = some job →
          job.holds ≠ some storage.manifestTmpPath

end Storage

end Tempr.Workspace
