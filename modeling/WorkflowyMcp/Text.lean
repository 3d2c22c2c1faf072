import Mathlib.Algebra.Order.BigOperators.Group.List
import Mathlib.Algebra.Order.Group.Nat
import Mathlib.Algebra.Ring.Nat
import Mathlib.Data.Nat.Cast.Basic
import Mathlib.Data.List.DropRight
import Mathlib.Tactic.Common

/-! String functions of the standard library that the workflows use. -/
namespace WorkflowyMcp

/-- Dropping stops at a character that is kept. -/
theorem head_dropWhile {α : Type} (p : α → Bool) (cs : List α) :
    ∀ c∈(cs.dropWhile p).head?, p c = false := by
  intro c hc
  have hstop := List.head?_dropWhile_not p cs
  rwa [Option.mem_def.mp hc] at hstop

theorem getLast_rdropWhile {α : Type} (p : α → Bool) (cs : List α) :
    ∀ c∈(cs.rdropWhile p).getLast?, p c = false := by
  intro c hc
  rw [List.rdropWhile,List.getLast?_reverse] at hc
  exact head_dropWhile p cs.reverse c hc

/-- The Unicode `White_Space` property. -/
def isWhiteSpace (c : Char) : Bool :=
  let n := c.toNat
  (9≤n && n≤13) || n == 0x20 || n == 0x85 || n == 0xa0 || n == 0x1680 ||
    (0x2000≤n && n≤0x200a) || n == 0x2028 || n == 0x2029 || n == 0x202f || n == 0x205f ||
    n == 0x3000

/-- The lines of a text without their ends, which are a line feed or a carriage return and a line
feed; the end of the last line may be missing. -/
def linesOf : List Char → List (List Char)
  | [] => []
  | '\n'::cs => []::linesOf cs
  | '\r':: '\n'::cs => []::linesOf cs
  | c::cs =>
    match linesOf cs with
    | [] => [[c]]
    | line::lines => (c::line)::lines

def lines (s : String) : List String := (linesOf s.toList).map String.ofList

/-- Two spaces for each level. -/
def indentation (levels : Nat) : String := String.join (List.replicate levels "  ")

def trim (s : String) : String :=
  String.ofList ((s.toList.dropWhile isWhiteSpace).reverse.dropWhile isWhiteSpace).reverse

def trimStart (s : String) : String := String.ofList (s.toList.dropWhile isWhiteSpace)

def trimEnd (s : String) : String := String.ofList (s.toList.rdropWhile isWhiteSpace)

theorem toList_trim (s : String) :
    (trim s).toList = (s.toList.dropWhile isWhiteSpace).rdropWhile isWhiteSpace := by
  simp [trim,List.rdropWhile]

/-- Trimming goes no further than to a part that neither starts nor ends in white space. -/
theorem toList_trim_append (a b : List Char) {m : List Char} (hne : m≠[])
    (hhead : ∀ c∈m.head?, isWhiteSpace c = false) (hlast : ∀ c∈m.getLast?, isWhiteSpace c = false) :
    (trim (String.ofList (a++m++b))).toList =
      a.dropWhile isWhiteSpace++m++b.rdropWhile isWhiteSpace := by
  obtain ⟨c,m',rfl⟩ := List.exists_cons_of_ne_nil hne
  have hc : isWhiteSpace c = false := hhead c rfl
  have hstart : (a++(c::m'++b)).dropWhile isWhiteSpace = a.dropWhile isWhiteSpace++(c::m'++b) := by
    rw [List.dropWhile_append]
    split
    · rename_i hnil
      rw [List.isEmpty_iff.mp hnil,List.nil_append,List.cons_append,
        List.dropWhile_cons_of_neg (by simp [hc])]
    · rfl
  obtain ⟨w,d,hw⟩ := (List.eq_nil_or_concat' (c::m')).resolve_left hne
  have hd : isWhiteSpace d = false := hlast d (by simp [hw])
  rw [toList_trim,String.toList_ofList,List.append_assoc,hstart,hw]
  simp only [List.rdropWhile,List.reverse_append,List.append_assoc,List.reverse_cons,
    List.singleton_append]
  rw [List.dropWhile_append]
  split
  · rename_i hnil
    rw [List.isEmpty_iff.mp hnil,List.cons_append,List.dropWhile_cons_of_neg (by simp [hd])]
    simp
  · simp

theorem trim_trim (s : String) : trim (trim s) = trim s := by
  have hstart (cs : List Char) : ((cs.dropWhile isWhiteSpace).rdropWhile isWhiteSpace).dropWhile
      isWhiteSpace = (cs.dropWhile isWhiteSpace).rdropWhile isWhiteSpace := by
    have hpre := List.rdropWhile_prefix isWhiteSpace (cs.dropWhile isWhiteSpace)
    rw [List.dropWhile_eq_self_iff]
    intro hpos
    rw [hpre.getElem hpos]
    exact List.dropWhile_get_zero_not isWhiteSpace cs _
  rw [← String.toList_inj,toList_trim,toList_trim,hstart,List.rdropWhile_idempotent]

/-- `to_lowercase` on ASCII text. -/
def asciiLowercase (s : String) : String := String.ofList (s.toList.map Char.toLower)

theorem toLower_idem (c : Char) : c.toLower.toLower = c.toLower := by
  unfold Char.toLower
  split
  · rename_i hc
    rw [dif_neg]
    rintro ⟨-,hle⟩
    simp only [ge_iff_le,UInt32.le_iff_toNat_le] at hc hle
    simp at hc hle
    omega
  · rfl

theorem asciiLowercase_idem (s : String) : asciiLowercase (asciiLowercase s) = asciiLowercase s := by
  have htwice : Char.toLower ∘ Char.toLower = Char.toLower := funext toLower_idem
  rw [asciiLowercase,asciiLowercase,String.toList_ofList,List.map_map,htwice]

theorem toNat_toLower (c : Char) :
    c.toLower.toNat = if 65≤c.toNat ∧ c.toNat≤90 then c.toNat+32 else c.toNat := by
  unfold Char.toLower
  simp only [ge_iff_le,UInt32.le_iff_toNat_le]
  split <;> rename_i h
  · have hupper : 65≤c.toNat ∧ c.toNat≤90 := h
    have hle := hupper.2
    have hdist : ('a'.val - 'A'.val).toNat = 32 := rfl
    rw [if_pos hupper]
    simp only [Char.toNat] at hle
    simp only [Char.toNat,UInt32.toNat_add,hdist]
    omega
  · have hupper : ¬(65≤c.toNat ∧ c.toNat≤90) := h
    rw [if_neg hupper]

theorem isWhiteSpace_toLower (c : Char) : isWhiteSpace c.toLower = isWhiteSpace c := by
  rw [Bool.eq_iff_iff]
  simp only [isWhiteSpace,toNat_toLower,Bool.or_eq_true,Bool.and_eq_true,decide_eq_true_eq,
    beq_iff_eq]
  split <;> omega

theorem trim_asciiLowercase (s : String) : trim (asciiLowercase s) = asciiLowercase (trim s) := by
  have hspace : isWhiteSpace ∘ Char.toLower = isWhiteSpace := funext isWhiteSpace_toLower
  rw [← String.toList_inj,toList_trim]
  simp [asciiLowercase,toList_trim,List.rdropWhile,List.dropWhile_map,← List.map_reverse,hspace]

def Ascii (s : String) : Prop := ∀ c∈s.toList, c.toNat < 128

instance (s : String) : Decidable (Ascii s) :=
  decidable_of_iff (s.toList.all fun c => c.toNat < 128) (by simp [Ascii])

theorem utf8ByteSize_ofList (cs : List Char) :
    (String.ofList cs).utf8ByteSize = (cs.map Char.utf8Size).sum := by
  induction cs with
  | nil => rfl
  | cons c cs ih =>
    have hcons : String.ofList (c::cs) = String.singleton c ++ String.ofList cs := by
      rw [← String.toList_inj]
      simp
    rw [hcons,String.utf8ByteSize_append,String.utf8ByteSize_singleton,ih,List.map_cons,
      List.sum_cons]

/-- An ASCII string has a byte for each character. -/
theorem Ascii.utf8ByteSize {s : String} (h : Ascii s) : s.utf8ByteSize = s.toList.length := by
  have hsize : s.toList.map Char.utf8Size = s.toList.map fun _ => 1 := by
    refine List.map_congr_left fun c hc => ?_
    rw [Char.utf8Size_eq_one_iff,UInt32.le_iff_toNat_le]
    exact Nat.le_of_lt_succ (h c hc)
  calc s.utf8ByteSize
    _ = (s.toList.map Char.utf8Size).sum := by rw [← utf8ByteSize_ofList,String.ofList_toList]
    _ = s.toList.length := by rw [hsize]; simp

/-- What is used of `to_lowercase`: each character becomes one or more, and on ASCII text
it is the ASCII one. -/
structure Lowercasing (toLowercase : String → String) : Prop where
  width : ∃ width : Char → Nat, (∀ c, 0 < width c) ∧
    ∀ s, (toLowercase s).toList.length = (s.toList.map width).sum
  ascii : ∀ s, Ascii s → toLowercase s = asciiLowercase s

/-- A text loses length in lowercase with any part that is left out. -/
theorem Lowercasing.ne_of_infix {toLowercase : String → String} (h : Lowercasing toLowercase)
    {u t v : List Char} (huv : u++v≠[]) :
    toLowercase (String.ofList (u++t++v)) ≠ toLowercase (String.ofList t) := by
  obtain ⟨width,hpos,hlen⟩ := h.width
  intro he
  have hsum := congrArg (fun s => s.toList.length) he
  simp only [hlen,String.toList_ofList,List.map_append,List.sum_append] at hsum
  obtain ⟨c,hc⟩ := List.exists_mem_of_ne_nil _ huv
  have hle : width c ≤ ((u++v).map width).sum :=
    List.single_le_sum (by simp) _ (List.mem_map_of_mem hc)
  have hc := hpos c
  rw [List.map_append,List.sum_append] at hle
  omega

theorem Lowercasing.ne_empty (hl : Lowercasing toLowercase) {s : String} (hs : s≠"") :
    toLowercase s ≠ "" := by
  have hne : s.toList++[]≠[] := by simpa using hs
  have hlen := hl.ne_of_infix (t := []) hne
  rw [hl.ascii (String.ofList []) (by simp [Ascii])] at hlen
  simpa [asciiLowercase] using hlen

theorem asciiLowercase_lowercasing : Lowercasing asciiLowercase :=
  ⟨⟨fun _ => 1,by simp,by simp [asciiLowercase]⟩,fun _ _ => rfl⟩

/-- What is used of the word class of a pattern: in ASCII it holds letters, digits and the
underscore, and no white space is in it. -/
structure WordClass (isWord : Char → Bool) : Prop where
  ascii : ∀ c, c.toNat < 128 → isWord c = (c.isAlphanum || c = '_')
  space : ∀ c, isWhiteSpace c = true → isWord c = false

def asciiWord (c : Char) : Bool := c.isAlphanum || c = '_'

theorem isAlphanum_iff (c : Char) : c.isAlphanum = true ↔
    65≤c.toNat ∧ c.toNat≤90 ∨ 97≤c.toNat ∧ c.toNat≤122 ∨ 48≤c.toNat ∧ c.toNat≤57 := by
  have hbounds : c.isAlphanum = (decide (65≤c.val ∧ c.val≤90) ||
    decide (97≤c.val) && decide (c.val≤122) || decide (48≤c.val) && decide (c.val≤57)) := rfl
  simp only [hbounds,Bool.or_eq_true,Bool.and_eq_true,decide_eq_true_eq,UInt32.le_iff_toNat_le,
    or_assoc]
  rfl

theorem asciiWord_wordClass : WordClass asciiWord := by
  refine ⟨fun _ _ => rfl,fun c hc => ?_⟩
  have hn : ∀ n, n=c.toNat → n<48 ∨ 57<n ∧ n<65 ∨ 90<n ∧ n<95 ∨ n=96 ∨ 122<n := by
    rintro n rfl
    simp only [isWhiteSpace,Bool.or_eq_true,Bool.and_eq_true,decide_eq_true_eq,beq_iff_eq] at hc
    omega
  have hrange := hn _ rfl
  have hunder : c ≠ '_' := by
    rintro rfl
    simp at hrange
  have hletter : c.isAlphanum = false := by
    rw [Bool.eq_false_iff,ne_eq,isAlphanum_iff]
    omega
  simp [asciiWord,hunder,hletter]

/- The debug form of a string. Characters above ASCII stay as they are, the
   unprintable ones among them included. -/
def debugChar (c : Char) : List Char :=
  if c = '\\' ∨ c = '"' then ['\\',c]
  else if c = '\t' then ['\\','t']
  else if c = '\n' then ['\\','n']
  else if c = '\r' then ['\\','r']
  else if c.toNat = 0 then ['\\','0']
  else if c.toNat < 32 ∨ c.toNat = 127 then
    ['\\','u','\x7b'] ++ Nat.toDigits 16 c.toNat ++ ['\x7d']
  else [c]

def debugStr (s : String) : String :=
  "\"" ++ String.ofList (s.toList.flatMap debugChar) ++ "\""

end WorkflowyMcp
