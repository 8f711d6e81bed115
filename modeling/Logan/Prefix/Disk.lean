import Logan.Util.Table
import Logan.Prefix.Container

/-!
# The store of prefix files

`SsdPrefixStore` keeps a container for every cached prefix, in a directory,
under a name that is made from the fingerprint of the prefix. The directory
is a table of files by name, in the order in which it is listed; a file that
cannot be opened has no content. A file is written under another name first
and then renamed, so that it is there as a whole or not at all.
-/

namespace Logan

/-- **A directory**: the content of its files, by name. -/
abbrev Directory : Type := Table String (Option (List UInt8))

/-- Whether the extension of a file name is `lpfx`. -/
def hasExtension (name : String) : Bool :=
  name.endsWith ".lpfx" && name != ".lpfx"

namespace Metered

variable {E F A : Type}

/-- `let Ok(a) = x else { .. }`: an error that is returned is not passed on. -/
def attempt (x : Metered E A) : Metered F (Option A) :=
  ⟨match x.result with
    | .ok a => .ok (some a)
    | .error (.error _) => .ok none
    | .error .panic => .error .panic
    | .error .endless => .error .endless, x.requests⟩

end Metered

section Sha

variable (sha256 : List UInt8 → Bytes 32)

namespace SsdPrefixStore

/-- The name of the file of a prefix: `snapshot_path`. -/
def snapshotPath (f : PrefixFingerprint) : String :=
  hexEncode (sha256 (f.model.digest.val ++ (f.stateSchema.digest.val ++
    (f.tokenizer.digest.val ++ (f.plan.digest.val ++
      (u64Bytes f.prefixTokenHash ++ u64Bytes f.prefixLen)))))).val ++ ".lpfx"

/-- What a file holds, if it can be read as a container. -/
def readFile (content : List UInt8) : Metered IoError (PrefixKey × StateSnapshot) := do
  let p ← readSnapshot sha256 content
  pure p.1.2

/-- **`scan_entries`**: the entries of all files that can be read. Corrupted
files are passed over. -/
def scanEntries : List (String × Option (List UInt8)) →
    Metered IoError (List (PrefixKey × StateSnapshot))
  | [] => pure []
  | (name, some content) :: files =>
    if hasExtension name then do
      let entry ← (readFile sha256 content).attempt
      let entries ← scanEntries files
      pure (entry.toList ++ entries)
    else scanEntries files
  | (_, none) :: files => scanEntries files

variable (dir : Directory)

/-- The files of a directory, in the order in which it lists them. -/
def files : List (String × Option (List UInt8)) :=
  dir.entries.map fun e => (e.1, e.2)

/-- **`read_for`**: the entry in the file of a fingerprint, if it is that of
the fingerprint. -/
def readFor (f : PrefixFingerprint) :
    Except (Failure IoError) (PrefixKey × StateSnapshot) :=
  match dir.lookup (snapshotPath sha256 f) with
  | none => .error (.error ⟨.notFound, "entity not found"⟩)
  | some none => .error (.error ⟨.other, "cannot be opened"⟩)
  | some (some content) => do
    let entry ← (readFile sha256 content).result
    if entry.1.fingerprint ≠ f then
      .error (.error (invalidData "prefix file identity does not match requested fingerprint"))
    else .ok entry

/-- **`write_for`**, on a file system that may fail, and then leaves the file
as it was. -/
def writeFor (key : PrefixKey) (snapshot : StateSnapshot)
    (failure : Option IoError) : Except (Failure IoError) Directory := do
  let content ← writeSnapshot sha256 key snapshot
  match failure with
  | some e => .error (.error e)
  | none => .ok (dir.insert (snapshotPath sha256 key.fingerprint) (some content))

/-- `remove` -/
def remove (f : PrefixFingerprint) : Directory :=
  Table.erase dir (snapshotPath sha256 f)

/-- The directory without the files of some fingerprints. -/
def removeAll (fs : List PrefixFingerprint) : Directory :=
  fs.foldl (remove sha256) dir

end SsdPrefixStore

end Sha

end Logan
