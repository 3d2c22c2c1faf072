import WorkflowyMcp.Lib.Infix
import WorkflowyMcp.RequestLoop

/-! The cause that is read off the text of an error, and the two tests of the client on that text,
against the HTTP status that the error came with. -/
namespace WorkflowyMcp

inductive ProximateCause where
  | Timeout
  | LockContention
  | CacheMiss
  | UpstreamError
  | Cancelled
  | NotFound
  | AuthFailure
  | InvalidParams
  | RateLimited
  | Unknown
deriving DecidableEq, Repr

namespace ProximateCause

/-- The Kelvin sign lowercases to a `k`. -/
def kelvinToK (text : String) : String :=
  String.ofList (text.toList.map fun c => if c = '\u212a' then 'k' else c)

def fromErrorMessage (errStr : String) : ProximateCause :=
  if containsLower errStr "429" || containsLower errStr "rate limit" then .RateLimited
  else if containsLower errStr "404" || containsLower errStr "not found" then .NotFound
  else if containsLower errStr "cancelled" then .Cancelled
  else if containsLower errStr "timeout" || containsLower errStr "timed out" then .Timeout
  else if containsLower errStr "api error 5" then .UpstreamError
  else if containsLower errStr "401" || containsLower errStr "403" ||
      containsLower errStr "unauthor" then .AuthFailure
  else if containsLower (kelvinToK errStr) "lock" then .LockContention
  else if containsLower errStr "cache" then .CacheMiss
  else .Unknown

def isRetryable : ProximateCause → Bool
  | .RateLimited | .Timeout | .UpstreamError | .LockContention | .CacheMiss | .NotFound
  | .Cancelled => true
  | _ => false

end ProximateCause

namespace ErrorClass
open ProximateCause

def digits (n : Nat) : List Char := (toString n).toList

theorem isDigit_of_mem {n : Nat} {c : Char} (h : c∈digits n) : c.isDigit = true := by
  have h : c∈Nat.toDigits 10 n := by simpa [digits] using h
  exact Nat.isDigit_of_mem_toDigits (by decide) (by decide) h

theorem digits_append {n d : Nat} (hn : 0 < n) (hd : d < 10) :
    digits (10*n+d) = digits n++digits d := by
  simp [digits,Nat.toDigits_append_toDigits (by decide) hn hd]

theorem toLower_eq {c : Char} (h : c.isDigit = true) : c.toLower = c := by
  have hle := (Char.isDigit_iff_toNat.mp h).2
  have hnine : '9'.toNat = 57 := rfl
  unfold Char.toLower
  rw [dif_neg]
  rintro ⟨hge,-⟩
  have hge : 65 ≤ c.toNat := hge
  omega

theorem map_toLower_digits (n : Nat) : (Nat.toDigits 10 n).map Char.toLower = digits n := by
  have hdigits : digits n = Nat.toDigits 10 n := by simp [digits]
  rw [← hdigits,List.map_congr_left fun _ hc => toLower_eq (isDigit_of_mem hc),List.map_id']

/-- The text behind which the body of an API error starts. -/
def apiWords (status : Nat) : List (List Char) := ["api".toList,"error".toList,digits status]

def retryWords (attempts : Nat) : List (List Char) :=
  ["retry".toList,"failed".toList,"after".toList,digits attempts,"attempts".toList]

theorem lower_apiError (status : Nat) (body : String) :
    (WorkflowyError.ApiError status body).display.toList.map Char.toLower =
      [' '].intercalate (apiWords status)++ ':':: ' '::body.toList.map Char.toLower := by
  have htext : (WorkflowyError.ApiError status body).display =
    "API error "++toString status++": "++body := rfl
  rw [htext]
  simp [apiWords,map_toLower_digits]

theorem lower_retryExhausted (attempts : Nat) (reason : String) :
    (WorkflowyError.RetryExhausted attempts reason).display.toList.map Char.toLower =
      [' '].intercalate (retryWords attempts)++ ':':: ' '::reason.toList.map Char.toLower := by
  have htext : (WorkflowyError.RetryExhausted attempts reason).display =
    "Retry failed after "++toString attempts++" attempts: "++reason := rfl
  rw [htext]
  simp [retryWords,map_toLower_digits]

/-- A needle that neither starts with a blank nor has a colon is before the body or in it. -/
def Needle (needle : String) : Prop :=
  ':'∉needle.toList ∧ needle.toList.head?.any (·≠ ' ') = true

instance (needle : String) : Decidable (Needle needle) := inferInstanceAs (Decidable (_ ∧ _))

theorem containsLower_iff {text needle : String} :
    containsLower text needle = true ↔ needle.toList <:+: text.toList.map Char.toLower :=
  decide_eq_true_iff

theorem Needle.behind_iff {needle : String} (h : Needle needle) (u v : List Char) :
    needle.toList <:+: u++ ':':: ' '::v ↔ needle.toList <:+: u ∨ needle.toList <:+: v := by
  obtain ⟨hcolon,hhead⟩ := h
  rw [infix_append_cons hcolon]
  cases hn : needle.toList with
  | nil => simp
  | cons d w => rw [infix_cons_iff_of_head (by simpa [hn] using hhead)]

/-- The error of a reply with the status, or what is left of it after this many attempts. -/
def raised (status : Nat) (body : String) : Option Nat → WorkflowyError
  | none => .ApiError status body
  | some attempts => Client.giveUp attempts (.ApiError status body)

/-- A needle is among the words before the body or in the body. -/
theorem Needle.raised_iff {needle : String} (h : Needle needle) (status : Nat) (body : String)
    (attempts : Option Nat) : containsLower (raised status body attempts).display needle = true ↔
      needle.toList <:+: [' '].intercalate (apiWords status) ∨
      (∃ n∈attempts, needle.toList <:+: [' '].intercalate (retryWords n)) ∨
        containsLower body needle = true := by
  have hapi : needle.toList <:+: (WorkflowyError.ApiError status body).display.toList.map
      Char.toLower ↔ needle.toList <:+: [' '].intercalate (apiWords status) ∨
        containsLower body needle = true := by
    rw [lower_apiError,h.behind_iff,containsLower_iff]
  cases attempts with
  | none => exact containsLower_iff.trans (hapi.trans (by simp))
  | some n =>
    have hraised : raised status body (some n) =
      .RetryExhausted n (WorkflowyError.ApiError status body).display := rfl
    rw [containsLower_iff,hraised,lower_retryExhausted,h.behind_iff,hapi]
    simp [or_left_comm]

/-- The words of the text that do not depend on the error. -/
def fixedWords : List String := ["retry","failed","after","attempts","api","error"]

theorem fixedWords_letters : ∀ y∈fixedWords, y.toList.any Char.isDigit = false := by decide

/-- A needle of letters is told from the fixed words by a part of it. -/
@[mk_iff phrase_def]
structure Phrase (needle core : String) : Prop where
  searched : Needle needle
  part : core.toList <:+: needle.toList
  word : ' '∉core.toList
  letter : core.toList.all Char.isDigit = false
  elsewhere : ∀ x∈fixedWords, ¬core.toList <:+: x.toList

instance (needle core : String) : Decidable (Phrase needle core) :=
  decidable_of_iff' _ (phrase_def needle core)

/-- A needle of digits. -/
@[mk_iff number_def]
structure Number (number : String) : Prop where
  searched : Needle number
  isDigit : number.toList.all Char.isDigit = true
  nonempty : number.toList≠[]

instance (number : String) : Decidable (Number number) := decidable_of_iff' _ (number_def number)

section needles
variable {needle core number : String} {status : Nat} {body : String} {attempts : Option Nat}

theorem Phrase.not_infix (h : Phrase needle core) {ws : List (List Char)} {n : Nat}
    (hws : ∀ x∈ws, (∃ y∈fixedWords, x = y.toList) ∨ x = digits n) :
    ¬needle.toList <:+: [' '].intercalate ws := by
  intro hin
  obtain ⟨c,hc,hletter⟩ := List.all_eq_false.mp h.letter
  obtain ⟨x,hx,hcore⟩ := (infix_intercalate h.word (List.ne_nil_of_mem hc)).mp (h.part.trans hin)
  rcases hws x hx with ⟨y,hy,rfl⟩ | rfl
  · exact h.elsewhere y hy hcore
  · exact hletter (isDigit_of_mem (hcore.subset hc))

theorem apiWords_mem : ∀ x∈apiWords status, (∃ y∈fixedWords, x = y.toList) ∨ x = digits status := by
  intro x hx
  simp only [apiWords,List.mem_cons,List.not_mem_nil,or_false] at hx
  rcases hx with rfl | rfl | rfl
  · exact .inl ⟨"api",by decide,rfl⟩
  · exact .inl ⟨"error",by decide,rfl⟩
  · exact .inr rfl

theorem retryWords_mem {n : Nat} :
    ∀ x∈retryWords n, (∃ y∈fixedWords, x = y.toList) ∨ x = digits n := by
  intro x hx
  simp only [retryWords,List.mem_cons,List.not_mem_nil,or_false] at hx
  rcases hx with rfl | rfl | rfl | rfl | rfl
  · exact .inl ⟨"retry",by decide,rfl⟩
  · exact .inl ⟨"failed",by decide,rfl⟩
  · exact .inl ⟨"after",by decide,rfl⟩
  · exact .inr rfl
  · exact .inl ⟨"attempts",by decide,rfl⟩

/-- The text of an error has a phrase from the body. -/
theorem Phrase.says_iff (h : Phrase needle core) (status : Nat) (body : String)
    (attempts : Option Nat) : containsLower (raised status body attempts).display needle = true ↔
      containsLower body needle = true := by
  rw [h.searched.raised_iff,or_iff_right (h.not_infix apiWords_mem),or_iff_right]
  rintro ⟨n,-,hin⟩
  exact h.not_infix retryWords_mem hin

/-- The number stands in the status, in the count of the attempts or in the body. -/
def Shows (status : Nat) (body : String) (attempts : Option Nat) (number : String) : Prop :=
  number.toList <:+: digits status ∨ (∃ n∈attempts, number.toList <:+: digits n) ∨
    containsLower body number = true

theorem Number.infix_iff (h : Number number) {ws : List (List Char)} {n : Nat}
    (hn : digits n∈ws) (hws : ∀ x∈ws, (∃ y∈fixedWords, x = y.toList) ∨ x = digits n) :
    number.toList <:+: [' '].intercalate ws ↔ number.toList <:+: digits n := by
  have hall := List.all_eq_true.mp h.isDigit
  have hblank : ' '∉number.toList := fun hmem => absurd (hall _ hmem) (by decide)
  rw [infix_intercalate hblank h.nonempty]
  constructor
  · rintro ⟨x,hx,hin⟩
    rcases hws x hx with ⟨y,hy,rfl⟩ | rfl
    · obtain ⟨c,hc⟩ := List.exists_mem_of_ne_nil _ h.nonempty
      exact absurd (hall c hc) (List.any_eq_false.mp (fixedWords_letters y hy) c (hin.subset hc))
    · exact hin
  · exact fun hin => ⟨_,hn,hin⟩

/-- The text of an error has a number where it is shown. -/
theorem Number.shows_iff (h : Number number) (status : Nat) (body : String)
    (attempts : Option Nat) : containsLower (raised status body attempts).display number = true ↔
      Shows status body attempts number := by
  have hapi : number.toList <:+: [' '].intercalate (apiWords status) ↔
      number.toList <:+: digits status := h.infix_iff (by simp [apiWords]) apiWords_mem
  have hretry (n : Nat) : number.toList <:+: [' '].intercalate (retryWords n) ↔
      number.toList <:+: digits n := h.infix_iff (by simp [retryWords]) retryWords_mem
  simp only [h.searched.raised_iff,hapi,hretry,Shows]

/-- The text of an error has a code in its status or in the body. -/
theorem Number.code_iff (h : Number number) (status : Nat) (body : String)
    (attempts : Option Nat) :
    containsLower (raised status body attempts).display ("api error "++number) = true ↔
      number.toList <+: digits status ∨ containsLower body ("api error "++number) = true := by
  have hneedle : ("api error "++number).toList = 'a'::("pi error ".toList++number.toList) := by
    rw [String.toList_append]
    rfl
  have hsearched : Needle ("api error "++number) := by
    refine ⟨?_,by rw [hneedle]; rfl⟩
    rw [hneedle]
    simpa using h.searched.1
  have hapi : [' '].intercalate (apiWords status) = 'a'::("pi error ".toList++digits status) := by
    simp [apiWords]
  have hfirst : 'a'∉"pi error ".toList++digits status := by
    rw [List.mem_append,not_or]
    exact ⟨by decide,fun hmem => absurd (isDigit_of_mem hmem) (by decide)⟩
  -- no word around the count of the attempts has an `o`
  have hout (n : Nat) : ¬("api error "++number).toList <:+: [' '].intercalate (retryWords n) := by
    have hwords : [' '].intercalate (retryWords n) =
        "retry failed after ".toList++(digits n++" attempts".toList) := by
      simp [retryWords]
    refine not_infix_of_mem (c := 'o') (by rw [hneedle]; simp) ?_
    rw [hwords,List.mem_append,List.mem_append,not_or,not_or]
    exact ⟨by decide,fun hmem => absurd (isDigit_of_mem hmem) (by decide),by decide⟩
  have hattempts : ¬∃ n∈attempts, ("api error "++number).toList <:+:
      [' '].intercalate (retryWords n) := by
    rintro ⟨n,-,hin⟩
    exact hout n hin
  rw [hsearched.raised_iff,or_iff_right hattempts,hapi,hneedle,infix_cons_iff_of_notMem hfirst,
    List.prefix_append_right_inj]

end needles

/-- The text carries the mark of a rate limit. -/
def Limited (status : Nat) (body : String) (attempts : Option Nat) : Prop :=
  Shows status body attempts "429" ∨ containsLower body "rate limit" = true

/-- The text carries the mark of a missing node. -/
def Missing (status : Nat) (body : String) (attempts : Option Nat) : Prop :=
  Shows status body attempts "404" ∨ containsLower body "not found" = true

def Aborted (body : String) : Prop :=
  containsLower body "cancelled" = true ∨ containsLower body "timeout" = true ∨
    containsLower body "timed out" = true

/-- The text carries the mark of a server error. -/
def Failing (status : Nat) (body : String) : Prop :=
  "5".toList <+: digits status ∨ containsLower body "api error 5" = true

def Denied (status : Nat) (body : String) (attempts : Option Nat) : Prop :=
  Shows status body attempts "401" ∨ Shows status body attempts "403" ∨
    containsLower body "unauthor" = true

/-- What the text of an error with the status is taken for is the class of the status. -/
@[mk_iff agrees_def]
structure Agrees (status : Nat) (e : WorkflowyError) : Prop where
  rateLimited : fromErrorMessage e.display = .RateLimited ↔ status = 429
  notFound : fromErrorMessage e.display = .NotFound ↔ status = 404
  propagation : is404Like e = true ↔ status = 404
  authFailure : fromErrorMessage e.display = .AuthFailure ↔ status = 401 ∨ status = 403
  upstreamError : fromErrorMessage e.display = .UpstreamError ↔ 500 ≤ status ∧ status < 600
  parentRelated : isParentRelatedError e = true → 400 ≤ status ∧ status < 500

/-- The flag to retry follows the status as well. -/
theorem Agrees.isRetryable {status : Nat} {e : WorkflowyError} (h : Agrees status e) :
    (status = 429 ∨ status = 404 ∨ 500 ≤ status ∧ status < 600 →
      (fromErrorMessage e.display).isRetryable = true) ∧
    (status = 401 ∨ status = 403 → (fromErrorMessage e.display).isRetryable = false) := by
  refine ⟨?_,fun hauth => ?_⟩
  · rintro (hlimit | hfound | hserver)
    · rw [h.rateLimited.mpr hlimit]
      rfl
    · rw [h.notFound.mpr hfound]
      rfl
    · rw [h.upstreamError.mpr hserver]
      rfl
  · rw [h.authFailure.mpr hauth]
    rfl

/-- No mark of another class stands in the text where it takes the place of the status. -/
def Unshadowed (status : Nat) (body : String) (attempts : Option Nat) : Prop :=
  if status = 429 then
    ¬(containsLower body "api error 404" = true ∨ containsLower body "not found" = true)
  else ¬Limited status body attempts ∧ (status = 404 ∨ ¬Missing status body attempts ∧
    if status = 401 ∨ status = 403 then ¬Aborted body ∧ ¬Failing status body
    else if 500 ≤ status ∧ status < 600 then ¬Aborted body
    else (Aborted body ∨ ¬Failing status body ∧ ¬Denied status body attempts) ∧
      (400 ≤ status ∧ status < 500 ∨ Failing status body ∨
        ¬containsLower body "parent" = true))

section causes
variable (status : Nat) (body : String) (attempts : Option Nat)

theorem limited_iff : (containsLower (raised status body attempts).display "429" ||
    containsLower (raised status body attempts).display "rate limit") = true ↔
      Limited status body attempts := by
  rw [Bool.or_eq_true,(by decide : Number "429").shows_iff,
    (by decide : Phrase "rate limit" "limit").says_iff,Limited]

theorem missing_iff : (containsLower (raised status body attempts).display "404" ||
    containsLower (raised status body attempts).display "not found") = true ↔
      Missing status body attempts := by
  rw [Bool.or_eq_true,(by decide : Number "404").shows_iff,
    (by decide : Phrase "not found" "found").says_iff,Missing]

theorem aborted_iff : containsLower (raised status body attempts).display "cancelled" = true ∨
    (containsLower (raised status body attempts).display "timeout" ||
      containsLower (raised status body attempts).display "timed out") = true ↔ Aborted body := by
  rw [Bool.or_eq_true,(by decide : Phrase "cancelled" "cancelled").says_iff,
    (by decide : Phrase "timeout" "timeout").says_iff,
    (by decide : Phrase "timed out" "timed").says_iff,Aborted]

theorem failing_iff : containsLower (raised status body attempts).display "api error 5" = true ↔
    Failing status body :=
  (by decide : Number "5").code_iff status body attempts

theorem denied_iff : (containsLower (raised status body attempts).display "401" ||
    containsLower (raised status body attempts).display "403" ||
      containsLower (raised status body attempts).display "unauthor") = true ↔
      Denied status body attempts := by
  rw [Bool.or_eq_true,Bool.or_eq_true,(by decide : Number "401").shows_iff,
    (by decide : Number "403").shows_iff,(by decide : Phrase "unauthor" "unauthor").says_iff,
    Denied,or_assoc]

/-- The tests of the text in their order. -/
theorem fromErrorMessage_cases {cause : ProximateCause}
    (h : fromErrorMessage (raised status body attempts).display = cause) :
    Limited status body attempts ∧ cause = .RateLimited ∨
    ¬Limited status body attempts ∧ (Missing status body attempts ∧ cause = .NotFound ∨
    ¬Missing status body attempts ∧ (Aborted body ∧ (cause = .Cancelled ∨ cause = .Timeout) ∨
    ¬Aborted body ∧ (Failing status body ∧ cause = .UpstreamError ∨
    ¬Failing status body ∧ (Denied status body attempts ∧ cause = .AuthFailure ∨
    ¬Denied status body attempts ∧
      (cause = .LockContention ∨ cause = .CacheMiss ∨ cause = .Unknown))))) := by
  subst h
  rw [← limited_iff,← missing_iff,← aborted_iff status body attempts,
    ← failing_iff status body attempts,← denied_iff]
  unfold fromErrorMessage
  split_ifs with hlimited hmissing hcancelled htimeout hfailing hdenied hlock hcache
  · exact .inl ⟨hlimited,rfl⟩
  · exact .inr ⟨hlimited,.inl ⟨hmissing,rfl⟩⟩
  · exact .inr ⟨hlimited,.inr ⟨hmissing,.inl ⟨.inl hcancelled,.inl rfl⟩⟩⟩
  · exact .inr ⟨hlimited,.inr ⟨hmissing,.inl ⟨.inr htimeout,.inr rfl⟩⟩⟩
  all_goals
    refine .inr ⟨hlimited,.inr ⟨hmissing,.inr ⟨not_or.mpr ⟨hcancelled,htimeout⟩,?_⟩⟩⟩
  · exact .inl ⟨hfailing,rfl⟩
  · exact .inr ⟨hfailing,.inl ⟨hdenied,rfl⟩⟩
  · exact .inr ⟨hfailing,.inr ⟨hdenied,.inl rfl⟩⟩
  · exact .inr ⟨hfailing,.inr ⟨hdenied,.inr (.inl rfl)⟩⟩
  · exact .inr ⟨hfailing,.inr ⟨hdenied,.inr (.inr rfl)⟩⟩

theorem rateLimited_iff : fromErrorMessage (raised status body attempts).display = .RateLimited ↔
    Limited status body attempts := by
  have hcases := fromErrorMessage_cases status body attempts rfl
  grind

theorem notFound_iff : fromErrorMessage (raised status body attempts).display = .NotFound ↔
    ¬Limited status body attempts ∧ Missing status body attempts := by
  have hcases := fromErrorMessage_cases status body attempts rfl
  grind

theorem upstreamError_iff :
    fromErrorMessage (raised status body attempts).display = .UpstreamError ↔
      ¬Limited status body attempts ∧ ¬Missing status body attempts ∧ ¬Aborted body ∧
        Failing status body := by
  have hcases := fromErrorMessage_cases status body attempts rfl
  grind

theorem authFailure_iff : fromErrorMessage (raised status body attempts).display = .AuthFailure ↔
    ¬Limited status body attempts ∧ ¬Missing status body attempts ∧ ¬Aborted body ∧
      ¬Failing status body ∧ Denied status body attempts := by
  have hcases := fromErrorMessage_cases status body attempts rfl
  grind

theorem is404Like_iff : is404Like (raised status body attempts) = true ↔
    "404".toList <+: digits status ∨ containsLower body "api error 404" = true ∨
      containsLower body "not found" = true := by
  unfold is404Like
  rw [Bool.or_eq_true,(by decide : Phrase "not found" "found").says_iff,
    show "api error 404" = "api error "++"404" from rfl,
    (by decide : Number "404").code_iff,or_assoc]

theorem isParentRelatedError_iff : isParentRelatedError (raised status body attempts) = true ↔
    (containsLower body "parent" = true ∨ containsLower body "not found" = true) ∧
      ¬Failing status body := by
  rw [← (by decide : Phrase "parent" "parent").says_iff status body attempts,
    ← (by decide : Phrase "not found" "found").says_iff status body attempts,
    ← failing_iff status body attempts]
  unfold isParentRelatedError
  cases containsLower (raised status body attempts).display "parent" <;>
    cases containsLower (raised status body attempts).display "not found" <;>
    cases containsLower (raised status body attempts).display "api error 5" <;> simp

/-- A missing node that the propagation retry sees is seen in the text. -/
theorem missing_of_is404Like (h : is404Like (raised status body attempts) = true) :
    Missing status body attempts := by
  rcases (is404Like_iff status body attempts).mp h with h | h | h
  · exact .inl (.inl h.isInfix)
  · have hpart : "404".toList <:+: "api error 404".toList := by decide
    exact .inl (.inr (.inr (decide_eq_true (hpart.trans (containsLower_iff.mp h)))))
  · exact .inr h

variable {status}

theorem limited_of_status (h : status = 429) : Limited status body attempts := by
  subst h
  exact .inl (.inl (by decide))

theorem missing_of_status (h : status = 404) : Missing status body attempts := by
  subst h
  exact .inl (.inl (by decide))

theorem denied_of_status (h : status = 401 ∨ status = 403) : Denied status body attempts := by
  rcases h with rfl | rfl
  · exact .inl (.inl (by decide))
  · exact .inr (.inl (.inl (by decide)))

theorem failing_of_status (h : 500 ≤ status ∧ status < 600) : Failing status body := by
  have htens : status = 10*(10*5+status/10%10)+status%10 := by omega
  refine .inl ?_
  rw [htens,digits_append (by omega) (by omega),digits_append (by omega) (by omega),
    List.append_assoc]
  exact List.prefix_append ..

variable (status)

/-- An error is taken for the class of its status exactly when no other mark takes its place. -/
theorem agrees_iff : Agrees status (raised status body attempts) ↔
    Unshadowed status body attempts := by
  have hcode := is404Like_iff status body attempts
  have hmissing := missing_of_is404Like status body attempts
  have hparent := isParentRelatedError_iff status body attempts
  rw [agrees_def,rateLimited_iff,notFound_iff,authFailure_iff,upstreamError_iff,hparent]
  unfold Unshadowed
  -- the status sets its own mark, what remains is which of the other marks may stand beside it
  by_cases hlimit : status = 429
  · have hlimited := limited_of_status body attempts hlimit
    have hprefix : ¬"404".toList <+: digits status := by
      subst hlimit
      decide
    grind
  by_cases hfound : status = 404
  · have hmark := missing_of_status body attempts hfound
    have hprefix : "404".toList <+: digits status := by
      subst hfound
      decide
    grind
  have hsaid : containsLower body "not found" = true → Missing status body attempts := .inr
  by_cases hauth : status = 401 ∨ status = 403
  · have hdenied := denied_of_status body attempts hauth
    grind
  by_cases hserver : 500 ≤ status ∧ status < 600
  · have hfailing := failing_of_status body hserver
    grind
  · grind

/-- The id of a node in the body is read as the status, and so are the words about a parent. -/
theorem body_shadows :
    fromErrorMessage (raised 500 "cannot load node 8f404a21" none).display = .NotFound ∧
      fromErrorMessage (raised 401 "no access to node 1429bc" (some 1)).display = .RateLimited ∧
      is404Like (raised 403 "parent not found" none) = true ∧
      is404Like (raised 429 "no tokens, bucket not found" (some 5)) = true ∧
      ¬Agrees 500 (raised 500 "cannot load node 8f404a21" none) ∧
      ¬Agrees 401 (raised 401 "no access to node 1429bc" (some 1)) ∧
      ¬Agrees 403 (raised 403 "parent not found" none) ∧
      ¬Agrees 429 (raised 429 "no tokens, bucket not found" (some 5)) := by
  have hserver : fromErrorMessage (raised 500 "cannot load node 8f404a21" none).display =
    .NotFound := by decide +kernel
  have hauth : fromErrorMessage (raised 401 "no access to node 1429bc" (some 1)).display =
    .RateLimited := by decide +kernel
  have hforbidden : is404Like (raised 403 "parent not found" none) = true := by decide +kernel
  have hlimit : is404Like (raised 429 "no tokens, bucket not found" (some 5)) = true := by
    decide +kernel
  refine ⟨hserver,hauth,hforbidden,hlimit,fun h => ?_,fun h => ?_,fun h => ?_,fun h => ?_⟩
  · exact absurd (h.notFound.mp hserver) (by decide)
  · exact absurd (h.rateLimited.mp hauth) (by decide)
  · exact absurd (h.propagation.mp hforbidden) (by decide)
  · exact absurd (h.propagation.mp hlimit) (by decide)

end causes

end ErrorClass
end WorkflowyMcp
