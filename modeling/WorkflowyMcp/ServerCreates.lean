import WorkflowyMcp.DeepCopy
import WorkflowyMcp.InsertContent
import WorkflowyMcp.ServerTools

/-! The handlers that leave their creates to a workflow and apply its footprint: the
convention-based mirror with its workflow, `insert_content` and `duplicate_node`. Ids are
resolved and the content is parsed when a handler starts. -/
namespace WorkflowyMcp

section marker
variable (toLowercase : String → String) (isWord : Char → Bool)

/- A match of `(?i)pre\s*([\w-]\x7b3,40\x7d)` at the head of the text. The case of the markers
   in use is that of ASCII letters, and no blank is a word character. -/
def markerAt (pre cs : List Char) : Option (List Char) :=
  if (cs.take pre.length).map Char.toLower = pre.map Char.toLower then
    let word := (((cs.drop pre.length).dropWhile isWhiteSpace).takeWhile
      fun c => isWord c || c = '-').take 40
    if 3 ≤ word.length then some word else none
  else none

def extractMarker (text pre : String) : Option String :=
  (text.toList.tails.findSome? (markerAt isWord pre.toList)).map
    fun word => toLowercase (String.ofList word)

end marker

structure CreateMirrorResult where
  mirrorId : String
  canonicalId : String
  targetParentId : Option String
  name : String
  auditStatus : String
  annotatedCanonical : Bool
deriving DecidableEq, Repr

structure CreateMirrorDryRun where
  canonicalId : String
  targetParentId : Option String
  mirrorName : String
  canonicalAlreadyMarked : Bool
  wouldAnnotateCanonical : Bool
  pillar : Option String
deriving DecidableEq, Repr

inductive CreateMirrorReply where
  | dryRun (preview : CreateMirrorDryRun)
  | ok (result : CreateMirrorResult)
deriving DecidableEq, Repr

def refuseSelfMirror (canonicalId : String) (targetParentId : Option String) :
    Except WorkflowyError Unit :=
  if targetParentId = some canonicalId then
    .error (.InvalidInput "target_parent_id cannot equal canonical_node_id — a node cannot mirror itself into its own subtree")
  else .ok ()

def normalisePillar (pillar : Option String) : Option String := (pillar.map trim).filter (· ≠ "")

section mirror
variable (toLowercase : String → String) (isWord : Char → Bool)

def createMirrorDryRun (canonicalId : String) (targetParentId pillar : Option String) :
    Api (Except WorkflowyError CreateMirrorDryRun) :=
  match refuseSelfMirror canonicalId targetParentId with
  | .error e => return .error e
  | .ok () => do
    match ← Client.getNode canonicalId with
    | .error e => return .error e
    | .ok canonical =>
      let marked := (extractMarker toLowercase isWord (canonical.description.getD "")
        "canonical_of:").isSome
      let pillar := normalisePillar pillar
      return .ok ⟨canonicalId,targetParentId,canonical.name,marked,pillar.isSome && !marked,pillar⟩

/-- Best effort: whether the canonical gained the marker. -/
def annotateCanonical (canonicalId canonicalDesc : String) (marked : Bool) :
    Option String → Api Bool
  | none => return false
  | some p =>
    if marked then return false
    else
      let markerLine := "canonical_of: " ++ p
      let newDesc := if canonicalDesc = "" then markerLine else canonicalDesc ++ "\n" ++ markerLine
      return (← Client.editNode canonicalId none (some newDesc)).isOk

def createMirrorViaConvention (canonicalId : String) (targetParentId : Option String)
    (priority : Option Int) (pillar : Option String) :
    Api (Except WorkflowyError (CreateMirrorResult × MutationFootprint)) :=
  match refuseSelfMirror canonicalId targetParentId with
  | .error e => return .error e
  | .ok () => do
    match ← Client.getNode canonicalId with
    | .error e => return .error e
    | .ok canonical =>
      let mirrorNote := "mirror_of: " ++ canonicalId
      match ← Client.createNode canonical.name (some mirrorNote) targetParentId priority with
      | .error e => return .error e
      | .ok created =>
        let fp := MutationFootprint.invalidateNode {} canonicalId
        let fp := match targetParentId with
          | some pid => fp.invalidateCacheOnly pid
          | none => fp
        let fp := fp.recordCreated created.id canonical.name (some mirrorNote) targetParentId
        let canonicalDesc := canonical.description.getD ""
        let marked := (extractMarker toLowercase isWord canonicalDesc "canonical_of:").isSome
        let annotated ← annotateCanonical canonicalId canonicalDesc marked (normalisePillar pillar)
        let fp := if annotated then fp.invalidateNode canonicalId else fp
        let auditStatus := if marked || annotated then "OK" else "ORPHAN_canonical_lacks_marker"
        return .ok (⟨created.id,canonicalId,targetParentId,canonical.name,auditStatus,annotated⟩,fp)

def Server.createMirror (s : Server) (canonicalId : String) (targetParentId : Option String)
    (priority : Option Int) (pillar : Option String) (dryRun : Option Bool) :
    Api (Handled CreateMirrorReply) :=
  if dryRun.getD false then do
    match ← createMirrorDryRun toLowercase isWord canonicalId targetParentId pillar with
    | .error e => return (.error (workflowErrorToMcp "create_mirror" (some canonicalId) e),s)
    | .ok preview => return (.ok (.dryRun preview),s)
  else do
    match ← createMirrorViaConvention toLowercase isWord canonicalId targetParentId priority pillar with
    | .error e => return (.error (workflowErrorToMcp "create_mirror" (some canonicalId) e),s)
    | .ok (result,fp) => return (.ok (.ok result),s.applyFootprint toLowercase fp)

end mirror

section
variable (toLowercase : String → String)

/-- Content without a line is answered before the workflow is asked. -/
def Server.insertContent (s : Server) (maxAttempts : Nat) (parentId : Option String)
    (parsed : List InsertContent.ParsedLine) :
    Net (Handled (Option InsertContent.InsertContentOutcome)) :=
  if parsed.isEmpty then return (.ok none,s)
  else do
    match ← InsertContent.insertContentViaIndented maxAttempts parentId parsed with
    | .error e =>
      let cache := match parentId with
        | some pid => s.cache.invalidateNode pid
        | none => s.cache
      return (.error (workflowErrorToMcp "insert_content" parentId e),{ s with cache })
    | .ok (outcome,fp) => return (.ok (some outcome),s.applyFootprint toLowercase fp)

/-- There is no reply when the fuel of the copy runs out. -/
def Server.duplicateNode (s : Server) (w : SubtreeWalk.WalkEnv) (fuel : Nat)
    (nodeId targetParentId : String)
    (includeChildren : Option Bool) (namePrefix : Option String) (ctx : DeepCopy.WorkflowContext) :
    Api (Option (Handled DeepCopy.DuplicateOutcome)) := do
  match ← DeepCopy.duplicateSubtree w fuel nodeId targetParentId (includeChildren.getD true)
      namePrefix ctx with
  | none => return none
  | some (.error e) =>
    return some (.error (workflowErrorToMcp "duplicate_node" (some nodeId) e),s)
  | some (.ok (outcome,fp)) => return some (.ok outcome,s.applyFootprint toLowercase fp)

end
end WorkflowyMcp
