import Mathlib.Data.String.Basic
import WorkflowyMcp.Lib.StableSort
import WorkflowyMcp.Text
import WorkflowyMcp.Types

/-! Tags and assignees in the text of a node. `isWord` is the word class of the pattern. -/
namespace WorkflowyMcp.TagParser

structure ParsedTags where
  tags : List String := []
  assignees : List String := []
deriving DecidableEq, Repr

variable (toLowercase : String → String) (isWord : Char → Bool)

def tagChar (c : Char) : Bool := isWord c || c = '-'

/-- What is kept of a match when it ends: a sigil alone is none. -/
def captured : Option (List Char) → List String
  | some (c::cs) => [String.ofList (c::cs)]
  | _ => []

/- The matches of the sigil and a run of tag characters, left to right; `run` is what
   was read since the last sigil. -/
def captures (sigil : Char) : Option (List Char) → List Char → List String
  | run,[] => captured run
  | some run,c::cs =>
    if tagChar isWord c then captures sigil (some (run++[c])) cs
    else captured (some run)++captures sigil (if c = sigil then some [] else none) cs
  | none,c::cs => captures sigil (if c = sigil then some [] else none) cs

/-- `#due-YYYY-MM-DD` is a date. -/
def isDueDate (tag : String) : Bool :=
  decide ("due-".toList <+: tag.toList) && tag.utf8ByteSize == 14

def parseTags (text : String) : ParsedTags where
  tags := sortByKey id
    (((captures isWord '#' none text.toList).map toLowercase).filter (!isDueDate ·)).dedup
  assignees := sortByKey id ((captures isWord '@' none text.toList).map toLowercase).dedup

def parseNodeTags (node : WorkflowyNode) : ParsedTags :=
  let combined := parseTags toLowercase isWord node.name
  match node.description with
  | none => combined
  | some desc =>
    let descTags := parseTags toLowercase isWord desc
    { tags := sortByKey id (combined.tags++descTags.tags).dedup
      assignees := sortByKey id (combined.assignees++descTags.assignees).dedup }

/-- Whole tags are compared; a needle that starts with `@` asks for an assignee. -/
def nodeHasTag (node : WorkflowyNode) (needle : String) : Bool :=
  let isAssignee := needle.toList.head? == some '@'
  let bare := toLowercase
    (String.ofList ((needle.toList.dropWhile (· = '#')).dropWhile (· = '@')))
  if bare = "" then false
  else
    let parsed := parseNodeTags toLowercase isWord node
    if isAssignee then parsed.assignees.contains bare else parsed.tags.contains bare

def bareTag (tag : String) : String := String.ofList (tag.toList.dropWhile (· = '#'))

def textContainsTag (text tag : String) : Bool :=
  let needle := toLowercase (bareTag tag)
  if needle = "" then false else (parseTags toLowercase isWord text).tags.contains needle

/-- No new name when the tag is there already. -/
def addTagToName (name tag : String) : Option String :=
  let bare := bareTag tag
  if bare = "" || textContainsTag toLowercase isWord name bare then none
  else some (trimEnd name ++ " #" ++ bare)

/- The pattern `\s*#bare(?:\b|$)`, given by the tag it is compiled for. -/
def compileTagStripRegex (tag : String) : Option (List Char) :=
  if bareTag tag = "" then none else some (bareTag tag).toList

/-- Whether a match may end behind `last`. -/
def tagBoundary (last : Char) : List Char → Bool
  | [] => true
  | c::_ => isWord last != isWord c

/- The length of the match at the head of the text. No white space is a `#`, so the longest
   run of it is the one to try. -/
def matchStrip (re cs : List Char) : Option Nat :=
  match cs.dropWhile isWhiteSpace with
  | '#' :: rest =>
    if re <+: rest ∧ tagBoundary isWord (re.getLastD '#') (rest.drop re.length) then
      some ((cs.takeWhile isWhiteSpace).length+1+re.length)
    else none
  | _ => none

/- The leftmost match is dropped and the search goes on behind it; `skip` characters of a
   match are still to be passed over. -/
def stripAll (re : List Char) : Nat → List Char → List Char
  | _,[] => []
  | skip+1,_::cs => stripAll re skip cs
  | 0,c::cs =>
    match matchStrip isWord re (c::cs) with
    | some n => stripAll re (n-1) cs
    | none => c::stripAll re 0 cs

def stripTagWithRegex (re : List Char) (name : String) : String :=
  String.ofList (stripAll isWord re 0 name.toList)

def removeTagFromName (name tag : String) : String :=
  match compileTagStripRegex tag with
  | none => name
  | some re => stripTagWithRegex isWord re name

/-- A tag that is added makes the name another one. -/
theorem addTagToName_ne {name tag new : String}
    (h : addTagToName toLowercase isWord name tag = some new) : new ≠ name := by
  intro he
  have hnew : trimEnd name ++ " #" ++ bareTag tag = name := by
    simp only [addTagToName] at h
    split at h
    · cases h
    · exact (Option.some.inj h).trans he
  -- what follows the trimmed name is white space, and `#` is none
  have hcut : name.toList.rtakeWhile isWhiteSpace = ' ' :: '#' :: (bareTag tag).toList := by
    have hadd : name.toList.rdropWhile isWhiteSpace ++ ' ' :: '#' :: (bareTag tag).toList =
        name.toList := by
      simpa [trimEnd] using congrArg String.toList hnew
    have hsplit : name.toList.rdropWhile isWhiteSpace ++ name.toList.rtakeWhile isWhiteSpace =
        name.toList := List.rdropWhile_append_rtakeWhile
    exact List.append_cancel_left (hsplit.trans hadd.symm)
  have hsharp : '#' ∈ name.toList.rtakeWhile isWhiteSpace := by simp [hcut]
  exact absurd (List.mem_rtakeWhile_imp hsharp) (by decide)

end WorkflowyMcp.TagParser
