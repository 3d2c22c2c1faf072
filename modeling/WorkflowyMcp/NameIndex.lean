import WorkflowyMcp.Lib.KeyMap
import WorkflowyMcp.Lib.StableSort
import WorkflowyMcp.Exclusion
import WorkflowyMcp.Types

/-! The name index and its persistence, for an index whose save path is set. The file
system's answers to one call are `DiskIo`; `toLowercase` is the Unicode lowering the
index keys its buckets by. -/
namespace WorkflowyMcp

def SHORT_HASH_LEN_PREFIX : Nat := 8
def PERSIST_SCHEMA_VERSION : Nat := 3

structure NameIndexEntry where
  nodeId : String
  name : String
  parentId : Option String
  description : Option String
  lastModified : Option Int
deriving DecidableEq, Repr

structure PrefixEntry where
  fullUuid : String
  count : Nat
deriving DecidableEq, Repr

structure PersistedSnapshot where
  version : Nat
  updatedAt : Nat
  nodes : List PersistedEntry
deriving DecidableEq, Repr

/-- What stands at the save path: nothing, bytes that do not parse, or a snapshot. -/
inductive IndexFile where
  | missing
  | malformed (error : String)
  | snapshot (snap : PersistedSnapshot)
deriving DecidableEq, Repr

def IndexFile.nodes : IndexFile → List PersistedEntry
  | .snapshot snap => snap.nodes
  | _ => []

structure Disk where
  file : IndexFile := .missing
  mtime : Nat := 0
deriving DecidableEq, Repr

inductive IoError where
  | invalidData (text : String)
  | other (text : String)
deriving DecidableEq, Repr

/-- The failures the file system reports during one call, the clock, and the
modification time a renamed file gets. -/
structure DiskIo where
  createDir : Option IoError := none
  lock : Option IoError := none
  read : Option IoError := none
  write : Option IoError := none
  rename : Option IoError := none
  stat : Option IoError := none
  now : Nat := 0
  mtime : Nat := 0
deriving DecidableEq, Repr

structure NameIndex where
  byName : KeyMap String (List NameIndexEntry) := ∅
  byId : KeyMap String String := ∅
  byShortHash : KeyMap String String := ∅
  byPrefixHash : KeyMap String PrefixEntry := ∅
  dirty : Bool := false
  tombstones : Finset String := ∅
  lastDiskRefreshMtime : Option Nat := none

def NameIndexEntry.ofNode (node : WorkflowyNode) : NameIndexEntry :=
  ⟨node.id,node.name,node.parentId,node.description,node.lastModified⟩

def NameIndexEntry.persisted (e : NameIndexEntry) : PersistedEntry :=
  ⟨e.nodeId,e.name,e.parentId,e.description,e.lastModified⟩

def PersistedEntry.toNode (e : PersistedEntry) : WorkflowyNode :=
  { id := e.id, name := e.name, parentId := e.parentId, description := e.description
    lastModified := e.lastModified }

def isAsciiHexdigit (c : Char) : Bool :=
  c.isDigit || ('a' ≤ c && c ≤ 'f') || ('A' ≤ c && c ≤ 'F')

def hexDigits (nodeId : String) : Option (List Char) :=
  let stripped := nodeId.toList.filter (· ≠ '-')
  if stripped.length = 32 ∧ stripped.all isAsciiHexdigit then some (stripped.map Char.toLower)
  else none

def prefixHashOf (nodeId : String) : Option String :=
  (hexDigits nodeId).map fun s => String.ofList (s.take SHORT_HASH_LEN_PREFIX)

def shortHashOf (nodeId : String) : Option String :=
  (hexDigits nodeId).map fun s => String.ofList (s.drop (s.length-SHORT_HASH_LEN_URL))

namespace NameIndex

def dropNamed (byName : KeyMap String (List NameIndexEntry)) (key nodeId : String) :
    KeyMap String (List NameIndexEntry) :=
  match byName.lookup key with
  | some entries =>
    let kept := entries.filter fun e => e.nodeId ≠ nodeId
    if kept = [] then byName.erase key else byName.insert key kept
  | none => byName

def dropShort (byShort : KeyMap String String) (nodeId : String) : KeyMap String String :=
  match shortHashOf nodeId with
  | some short => if byShort.lookup short = some nodeId then byShort.erase short else byShort
  | none => byShort

/- An ambiguous prefix stays ambiguous: its count is not taken back. -/
def dropPrefix (byPrefix : KeyMap String PrefixEntry) (nodeId : String) :
    KeyMap String PrefixEntry :=
  match prefixHashOf nodeId with
  | some pre =>
    match byPrefix.lookup pre with
    | some e => if e.count = 1 ∧ e.fullUuid = nodeId then byPrefix.erase pre else byPrefix
    | none => byPrefix
  | none => byPrefix

def addPrefix (byPrefix : KeyMap String PrefixEntry) (nodeId : String) :
    KeyMap String PrefixEntry :=
  match prefixHashOf nodeId with
  | some pre =>
    match byPrefix.lookup pre with
    | some e =>
      if e.fullUuid ≠ nodeId
      then byPrefix.insert pre { e with count := min (e.count+1) (2^32-1) }
      else byPrefix
    | none => byPrefix.insert pre ⟨nodeId,1⟩
  | none => byPrefix

def addShort (byShort : KeyMap String String) (nodeId : String) : KeyMap String String :=
  match shortHashOf nodeId with
  | some short => byShort.insert short nodeId
  | none => byShort

def removeLocked (idx : NameIndex) (nodeId : String) : NameIndex :=
  let byName :=
    match idx.byId.lookup nodeId with
    | some key => dropNamed idx.byName key nodeId
    | none => idx.byName
  { idx with
    byName := byName
    byId := idx.byId.erase nodeId
    byShortHash := dropShort idx.byShortHash nodeId
    byPrefixHash := dropPrefix idx.byPrefixHash nodeId }

section
variable (toLowercase : String → String)

/-- Same lowercased name and description, and no new timestamp: the node is skipped,
whatever its parent. -/
def sameContent (idx : NameIndex) (node : WorkflowyNode) : Bool :=
  let key := toLowercase node.name
  if idx.byId.lookup node.id = some key then
    match (idx.byName.lookup key).bind fun v => v.find? fun e => e.nodeId = node.id with
    | some e =>
      e.description = node.description &&
        (node.lastModified.isNone || e.lastModified = node.lastModified)
    | none => false
  else false

def addNode (idx : NameIndex) (node : WorkflowyNode) : NameIndex :=
  let key := toLowercase node.name
  { idx with
    byName := idx.byName.insert key
      ((idx.byName.lookup key).getD [] ++ [NameIndexEntry.ofNode node])
    byId := idx.byId.insert node.id key
    byShortHash := addShort idx.byShortHash node.id
    byPrefixHash := addPrefix idx.byPrefixHash node.id
    dirty := true }

def ingestNode (idx : NameIndex) (node : WorkflowyNode) : NameIndex :=
  if idx.sameContent toLowercase node then idx
  else (idx.removeLocked node.id).addNode toLowercase node

/- The source sets the dirty flag once, after the batch, when some node changed the
   maps; `addNode` sets it at each such node. -/
def ingest (idx : NameIndex) (nodes : List WorkflowyNode) : NameIndex :=
  nodes.foldl (ingestNode toLowercase) idx

end

def lookupEntryById (idx : NameIndex) (nodeId : String) : Option NameIndexEntry :=
  match idx.byId.lookup nodeId with
  | some key => (idx.byName.lookup key).bind fun v => v.find? fun e => e.nodeId = nodeId
  | none => none

def invalidateNode (idx : NameIndex) (nodeId : String) : NameIndex :=
  let removed := idx.removeLocked nodeId
  if (idx.byId.lookup nodeId).isSome
  then { removed with tombstones := insert nodeId removed.tombstones, dirty := true }
  else removed

def clear (idx : NameIndex) : NameIndex :=
  let populated := !idx.byId.keys.isEmpty
  { idx with
    byName := ∅
    byId := ∅
    byShortHash := ∅
    byPrefixHash := ∅
    tombstones := if populated then idx.tombstones ∪ idx.byId.keys.toFinset else idx.tombstones
    dirty := idx.dirty || populated }

/-- Every entry, bucket by bucket. -/
def entries (idx : NameIndex) : List NameIndexEntry := idx.byName.values.flatten

/-- The persisted form: the only place it is built. -/
def snapshot (tokens : List String) (idx : NameIndex) (now : Nat) : PersistedSnapshot :=
  let nodes := idx.entries.map NameIndexEntry.persisted
  let excluded := excludedIds nodes tokens
  ⟨PERSIST_SCHEMA_VERSION,now,
    sortByKey PersistedEntry.id (nodes.filter fun n => n.id∉excluded)⟩

def newerOnLoad (version : Nat) : String :=
  "name index schema version " ++ toString version ++ " is newer than this binary supports (" ++
    toString PERSIST_SCHEMA_VERSION ++
    ") — refusing to load; upgrade the binary or move the file aside"

def newerOnMerge (version : Nat) : String :=
  "name index on disk is schema v" ++ toString version ++ " but this binary writes v" ++
    toString PERSIST_SCHEMA_VERSION ++ " — refusing to merge/overwrite a newer writer's file"

section
variable (toLowercase : String → String)

def loadFromDisk (idx : NameIndex) (disk : Disk) (io : DiskIo) : Except IoError Nat × NameIndex :=
  match disk.file with
  | .missing => (.ok 0,idx)
  | .malformed error =>
    match io.read with
    | some e => (.error e,idx)
    | none => (.error (.invalidData error),idx)
  | .snapshot snap =>
    match io.read with
    | some e => (.error e,idx)
    | none =>
      if snap.version > PERSIST_SCHEMA_VERSION
      then (.error (.invalidData (newerOnLoad snap.version)),idx)
      else
        let loaded := idx.ingest toLowercase (snap.nodes.map PersistedEntry.toNode)
        (.ok snap.nodes.length,{ loaded with dirty := false })

def adopts (idx : NameIndex) (e : PersistedEntry) : Bool :=
  (idx.byId.lookup e.id).isNone && decide (e.id∉idx.tombstones)

/-- Read the file and adopt every entry this process has no opinion on. -/
def mergeFromDisk (idx : NameIndex) (file : IndexFile) (io : DiskIo) : Except IoError NameIndex :=
  match io.read with
  | some e => .error e
  | none =>
    match file with
    | .missing | .malformed _ => .ok idx
    | .snapshot snap =>
      if snap.version > PERSIST_SCHEMA_VERSION
      then .error (.invalidData (newerOnMerge snap.version))
      else .ok (idx.ingest toLowercase ((snap.nodes.filter idx.adopts).map PersistedEntry.toNode))

def stampMtime (idx : NameIndex) (io : DiskIo) : NameIndex :=
  match io.stat with
  | some _ => idx
  | none => { idx with lastDiskRefreshMtime := some io.mtime }

def clearDirty (idx : NameIndex) : NameIndex := { idx with dirty := false }

def clearTombstones (idx : NameIndex) : NameIndex := { idx with tombstones := ∅ }

/- The snapshot is written to a temporary file, so only the rename changes the index
   file. The save lock is held from the read to the rename. -/
def saveToDisk (tokens : List String) (idx : NameIndex) (disk : Disk) (io : DiskIo) :
    Except IoError Unit × NameIndex × Disk :=
  match io.createDir, io.lock with
  | some e, _ | none, some e => (.error e,idx,disk)
  | none, none =>
    match idx.mergeFromDisk toLowercase disk.file io with
    | .error e => (.error e,idx,disk)
    | .ok merged =>
      match io.write, io.rename with
      | some e, _ | none, some e => (.error e,merged,disk)
      | none, none =>
        (.ok (),((merged.stampMtime io).clearDirty).clearTombstones,
          ⟨.snapshot (merged.snapshot tokens io.now),io.mtime⟩)

def refreshFromDiskIfChanged (idx : NameIndex) (disk : Disk) (io : DiskIo) :
    Except IoError Bool × NameIndex :=
  match disk.file, io.stat with
  | .missing, none => (.ok false,idx)
  | _, some e => (.error e,idx)
  | file, none =>
    if idx.lastDiskRefreshMtime = some disk.mtime then (.ok false,idx)
    else
      match idx.mergeFromDisk toLowercase file io with
      | .error e => (.error e,idx)
      | .ok merged => (.ok true,{ merged with lastDiskRefreshMtime := some disk.mtime })

end
end NameIndex
end WorkflowyMcp
