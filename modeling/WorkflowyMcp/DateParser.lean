import WorkflowyMcp.Lib.Selection
import WorkflowyMcp.Text
import WorkflowyMcp.Types

/-! Dates of the proleptic Gregorian calendar and the due date that is read from a text. `isWord`
and `isDigit` are the character classes of the patterns. -/
namespace WorkflowyMcp

namespace Calendar

def isLeapYear (year : Int) : Bool := year%4 = 0 && (year%100 ≠ 0 || year%400 = 0)

def daysInMonth (year : Int) (month : Nat) : Nat :=
  match month with
  | 2 => if isLeapYear year then 29 else 28
  | 4 | 6 | 9 | 11 => 30
  | _ => 31

/-- The days of the months before this one. -/
def daysBefore (year : Int) : Nat → Nat
  | 0 | 1 => 0
  | month+2 => daysBefore year (month+1)+daysInMonth year (month+1)

/-- The first of January of the year 1 has the number 1. -/
def dayNumber (year : Int) (month day : Nat) : Int :=
  365*(year-1)+(year-1)/4-(year-1)/100+(year-1)/400+daysBefore year month+day

end Calendar
open Calendar

def MIN_DAYS : Int := dayNumber (-262143) 1 1
def MAX_DAYS : Int := dayNumber 262142 12 31

/-- A day, by its number. -/
structure NaiveDate where
  numDays : Int
  inRange : MIN_DAYS≤numDays ∧ numDays≤MAX_DAYS
deriving DecidableEq

namespace NaiveDate

instance : LT NaiveDate := ⟨fun a b => a.numDays < b.numDays⟩
instance : LE NaiveDate := ⟨fun a b => a.numDays≤b.numDays⟩
instance (a b : NaiveDate) : Decidable (a < b) := inferInstanceAs (Decidable (a.numDays < b.numDays))
instance (a b : NaiveDate) : Decidable (a≤b) := inferInstanceAs (Decidable (a.numDays≤b.numDays))

def ofNumDays (numDays : Int) : Option NaiveDate :=
  if h : MIN_DAYS≤numDays ∧ numDays≤MAX_DAYS then some ⟨numDays,h⟩ else none

def fromYmdOpt (year : Int) (month day : Nat) : Option NaiveDate :=
  if 1 ≤ month ∧ month ≤ 12 ∧ 1 ≤ day ∧ day ≤ daysInMonth year month
  then ofNumDays (dayNumber year month day) else none

/- Years are counted from the first of March, so that a leap day ends one; 400 of them make an
   era. -/
def ymd (date : NaiveDate) : Int × Int × Int :=
  let z := date.numDays+305
  let era := z/146097
  let doe := z%146097
  let yoe := (doe-doe/1460+doe/36524-doe/146096)/365
  let doy := doe-(365*yoe+yoe/4-yoe/100)
  let mp := (5*doy+2)/153
  let day := doy-(153*mp+2)/5+1
  let month := if mp < 10 then mp+3 else mp-9
  (yoe+400*era+(if month≤2 then 1 else 0),month,day)

def padded (width : Nat) (n : Nat) : String :=
  let digits := toString n
  String.ofList (List.replicate (width-digits.toList.length) '0')++digits

def toText (date : NaiveDate) : String :=
  let (year,month,day) := date.ymd
  (if 0≤year ∧ year≤9999 then padded 4 year.toNat
    else (if year < 0 then "-" else "+")++padded 4 year.natAbs)++
  "-"++padded 2 month.toNat++"-"++padded 2 day.toNat

end NaiveDate

namespace DateParser

def decimal (cs : List Char) : Option Nat :=
  if cs.all Char.isDigit then some (cs.foldl (fun n c => 10*n+(c.toNat- '0'.toNat)) 0) else none

/-- `%Y-%m-%d`, for a token of the length of the pattern. A digit that is not ASCII is none. -/
def parseFromStr (token : List Char) : Option NaiveDate :=
  (decimal (token.take 4)).bind fun year =>
    (decimal ((token.drop 5).take 2)).bind fun month =>
      (decimal ((token.drop 8).take 2)).bind fun day => NaiveDate.fromYmdOpt year month day

inductive DueForm where
  | DUE_COLON
  | DUE_TAG
  | BARE_DATE
deriving DecidableEq, Repr

section text
variable (isWord isDigit : Char → Bool)

/-- `\d{4}-\d{2}-\d{2}` -/
def dateAt : List Char → Option (List Char)
  | y₁::y₂::y₃::y₄:: '-'::m₁::m₂:: '-'::d₁::d₂::_ =>
    if [y₁,y₂,y₃,y₄,m₁,m₂,d₁,d₂].all isDigit then
      some [y₁,y₂,y₃,y₄, '-',m₁,m₂, '-',d₁,d₂] else none
  | _ => none

/-- `\b` -/
def wordBoundary (before next : Option Char) : Bool := before.any isWord != next.any isWord

/-- What the form captures at the head of the text, which stands behind `before`. -/
def DueForm.matchAt (before : Option Char) (cs : List Char) : DueForm → Option (List Char)
  | .DUE_COLON => if "due:".toList <+: cs then dateAt isDigit (cs.drop 4) else none
  | .DUE_TAG => if "#due-".toList <+: cs then dateAt isDigit (cs.drop 5) else none
  | .BARE_DATE =>
    (dateAt isDigit cs).filter fun token =>
      wordBoundary isWord before cs.head? &&
        wordBoundary isWord token.getLast? (cs.drop token.length).head?

/-- What the leftmost match captures. -/
def captures (form : DueForm) : Option Char → List Char → Option (List Char)
  | _,[] => none
  | before,c::cs =>
    match form.matchAt isWord isDigit before (c::cs) with
    | some token => some token
    | none => captures form (some c) cs

def captured (form : DueForm) (text : String) : Option NaiveDate :=
  (captures isWord isDigit form none text.toList).bind parseFromStr

def parseDueDate (text : String) : Option NaiveDate :=
  match captured isWord isDigit .DUE_COLON text with
  | some d => some d
  | none =>
    match captured isWord isDigit .DUE_TAG text with
    | some d => some d
    | none => captured isWord isDigit .BARE_DATE text

def parseDueDateFromNode (node : WorkflowyNode) : Option NaiveDate :=
  match parseDueDate isWord isDigit node.name with
  | some d => some d
  | none => node.description.bind (parseDueDate isWord isDigit)

def isOverdue (node : WorkflowyNode) (today : NaiveDate) : Bool :=
  if node.completedAt.isSome then false
  else (parseDueDateFromNode isWord isDigit node).any (· < today)

/-- All that is written in the form, in the order of the text. -/
def occurrences (form : DueForm) : Option Char → List Char → List (List Char)
  | _,[] => []
  | before,c::cs =>
    (form.matchAt isWord isDigit before (c::cs)).toList++occurrences form (some c) cs

/-- The first valid date that is written in the form. -/
def firstValid (text : String) (form : DueForm) : Option NaiveDate :=
  (occurrences isWord isDigit form none text.toList).findSome? parseFromStr

/-- The forms, by their priority. -/
def dueForms : List DueForm := [.DUE_COLON,.DUE_TAG,.BARE_DATE]

/-- The first valid date in the highest form that has one. -/
def dueDateWritten (text : String) : Option NaiveDate :=
  dueForms.findSome? (firstValid isWord isDigit text)

/-- In the highest form with a valid date the first date that is written is valid, or else the
lower forms give the same day. -/
def FirstDecides (text : String) : Prop :=
  ∀ above form below, dueForms = above++form::below →
    (∀ f∈above, firstValid isWord isDigit text f = none) →
    ∀ d, firstValid isWord isDigit text form = some d → captured isWord isDigit form text = none →
      below.findSome? (captured isWord isDigit · text) = some d

/-- The date of a text is read right; of a node, that of its name, or of its description where the
name has none. -/
structure NodeDateRight (node : WorkflowyNode) : Prop where
  name : parseDueDate isWord isDigit node.name = dueDateWritten isWord isDigit node.name
  description : ∀ desc∈node.description,
    parseDueDate isWord isDigit desc = dueDateWritten isWord isDigit desc
  fallback : parseDueDateFromNode isWord isDigit node =
    (dueDateWritten isWord isDigit node.name).or
      (node.description.bind (dueDateWritten isWord isDigit))

end text

variable {isWord isDigit : Char → Bool}

theorem captures_eq_head (form : DueForm) (before : Option Char) (cs : List Char) :
    captures isWord isDigit form before cs = (occurrences isWord isDigit form before cs).head? := by
  induction cs generalizing before with
  | nil => rfl
  | cons c cs ih =>
    rw [captures,occurrences]
    cases form.matchAt isWord isDigit before (c::cs) with
    | none => exact ih (some c)
    | some token => rfl

/-- The date that is captured is the first valid one, if it is one. -/
theorem firstValid_of_captured {form : DueForm} {text : String} {d : NaiveDate}
    (h : captured isWord isDigit form text = some d) :
    firstValid isWord isDigit text form = some d := by
  rw [captured,captures_eq_head] at h
  rw [firstValid]
  cases hocc : occurrences isWord isDigit form none text.toList with
  | nil => simp [hocc] at h
  | cons token rest =>
    rw [hocc] at h
    have htoken : parseFromStr token = some d := h
    rw [List.findSome?_cons,htoken]

theorem parseDueDate_eq (text : String) :
    parseDueDate isWord isDigit text = dueForms.findSome? (captured isWord isDigit · text) := by
  rw [parseDueDate,dueForms]
  cases hcolon : captured isWord isDigit .DUE_COLON text <;>
    cases htag : captured isWord isDigit .DUE_TAG text <;>
    cases hbare : captured isWord isDigit .BARE_DATE text <;>
    simp [hcolon,htag,hbare]

theorem parseDueDate_iff (text : String) :
    parseDueDate isWord isDigit text = dueDateWritten isWord isDigit text ↔
      FirstDecides isWord isDigit text := by
  rw [parseDueDate_eq]
  exact findSome?_eq_iff fun _ _ => firstValid_of_captured

theorem parseDueDateFromNode_eq (node : WorkflowyNode) :
    parseDueDateFromNode isWord isDigit node = (parseDueDate isWord isDigit node.name).or
      (node.description.bind (parseDueDate isWord isDigit)) := by
  rw [parseDueDateFromNode]
  cases parseDueDate isWord isDigit node.name <;> rfl

/-- The date read from a text is the one that is written there if and only if the first date of
the deciding form is valid, or a lower form gives the same; so with the two texts of a node. -/
theorem due_date_iff (isWord isDigit : Char → Bool) :
    (∀ text, parseDueDate isWord isDigit text = dueDateWritten isWord isDigit text ↔
      FirstDecides isWord isDigit text) ∧
    ∀ node, NodeDateRight isWord isDigit node ↔ FirstDecides isWord isDigit node.name ∧
      ∀ desc∈node.description, FirstDecides isWord isDigit desc := by
  refine ⟨parseDueDate_iff,fun node => ⟨fun h => ?_,fun ⟨hname,hdesc⟩ => ?_⟩⟩
  · exact ⟨(parseDueDate_iff _).mp h.name,fun desc hd =>
      (parseDueDate_iff _).mp (h.description desc hd)⟩
  · have hname := (parseDueDate_iff _).mpr hname
    have hdesc := fun desc hd => (parseDueDate_iff _).mpr (hdesc desc hd)
    refine ⟨hname,hdesc,?_⟩
    rw [parseDueDateFromNode_eq,hname]
    congr 1
    cases hd : node.description with
    | none => rfl
    | some desc => exact hdesc desc hd

/-- An invalid date hides the valid one behind it. -/
theorem valid_date_hidden :
    let text := "due:2026-13-01 due:2026-03-15"
    parseDueDate asciiWord Char.isDigit text = none ∧
      (dueDateWritten asciiWord Char.isDigit text).map NaiveDate.toText = some "2026-03-15" ∧
      parseDueDate asciiWord Char.isDigit text ≠
        dueDateWritten asciiWord Char.isDigit text := by
  decide +kernel

end DateParser
end WorkflowyMcp
