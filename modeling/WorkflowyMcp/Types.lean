import Mathlib.Data.List.Infix

/-! Nodes, errors and truncation reasons shared by the client, the workflows and
the name index. Node fields that no modelled function reads are left out. -/
namespace WorkflowyMcp

structure WorkflowyNode where
  id : String := ""
  name : String := ""
  description : Option String := none
  parentId : Option String := none
  lastModified : Option Int := none
  completedAt : Option Int := none
  completed : Bool := false
  priority : Option Int := none
  layoutMode : Option String := none
deriving DecidableEq, Repr

structure CreatedNode where
  id : String
  name : String
  parentId : Option String
deriving DecidableEq, Repr

/- `HttpError` keeps the text of the transport error and whether it is one of the
   timeout, connect, request or body kinds. -/
inductive WorkflowyError where
  | ApiError (status : Nat) (message : String)
  | RetryExhausted (attempts : Nat) (reason : String)
  | QueueTimeout (operation : String)
  | JobFailed (jobId message : String)
  | InvalidPath (reason : String)
  | InvalidInput (reason : String)
  | ConfigError (reason : String)
  | CacheError (reason : String)
  | ParseError (reason : String)
  | IoError (text : String)
  | SerializationError (text : String)
  | HttpError (text : String) (transient : Bool)
  | Timeout
  | Cancelled
  | Internal (text : String)
deriving DecidableEq, Repr

def WorkflowyError.display : WorkflowyError → String
  | .ApiError status message => "API error " ++ toString status ++ ": " ++ message
  | .RetryExhausted attempts reason =>
      "Retry failed after " ++ toString attempts ++ " attempts: " ++ reason
  | .QueueTimeout operation => "Request queue timeout: " ++ operation
  | .JobFailed jobId message => "Job " ++ jobId ++ " failed: " ++ message
  | .InvalidPath reason => "Invalid path: " ++ reason
  | .InvalidInput reason => "Invalid input: " ++ reason
  | .ConfigError reason => "Configuration error: " ++ reason
  | .CacheError reason => "Cache error: " ++ reason
  | .ParseError reason => "Parse error: " ++ reason
  | .IoError text => "IO error: " ++ text
  | .SerializationError text => "Serialization error: " ++ text
  | .HttpError text _ => "HTTP error: " ++ text
  | .Timeout => "Timeout"
  | .Cancelled => "Cancelled"
  | .Internal text => "Internal error: " ++ text

/-- The two variants with which a request reports that its caller gave up. -/
def WorkflowyError.isAbort : WorkflowyError → Bool
  | .Cancelled | .Timeout => true
  | _ => false

/- The needles the client searches for are ASCII and hold no letter that another
   character lowercases to, so lowering the ASCII letters finds the same matches
   as the full `to_lowercase`. -/
def containsLower (text needle : String) : Bool :=
  decide (needle.toList <:+: text.toList.map Char.toLower)

def is404Like (e : WorkflowyError) : Bool :=
  containsLower e.display "api error 404" || containsLower e.display "not found"

def isParentRelatedError (e : WorkflowyError) : Bool :=
  if !containsLower e.display "parent" && !containsLower e.display "not found" then false
  else if containsLower e.display "api error 5" then false
  else true

inductive TruncationReason where
  | NodeLimit
  | Timeout
  | Cancelled
  | SkippedBranches
deriving DecidableEq, Repr

/-- Map an abort error onto its truncation reason; any other error is a caller's
mistake and reads as a cancellation. -/
def abortReason : WorkflowyError → TruncationReason
  | .Cancelled => .Cancelled
  | .Timeout => .Timeout
  | _ => .Cancelled

end WorkflowyMcp
