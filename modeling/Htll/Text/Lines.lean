import Mathlib.Data.Int.Notation
import Mathlib.Data.List.Basic
import Mathlib.Data.Nat.Notation

/-!
# Files of lines

A text file is a list of lines. `sed -n` selects lines by their numbers, which begin at 1, and
`awk` splits a line into fields at its blanks. Numerals are decimal: they are printed as `%lu` and
`%ld` do, and read back if they are as printed, without leading zeros.
-/

namespace Text

/-- A line, without its end. -/
abbrev Line := List Char

/-! ## Numerals -/

/-- `%lu`. -/
def decimal (n : ℕ) : Line := Nat.toDigits 10 n

/-- `%ld`. -/
def signedDecimal : ℤ → Line
  | .ofNat n => decimal n
  | .negSucc n => '-' :: decimal (n + 1)

/-- The number of a numeral. -/
def readDecimal (w : Line) : Option ℕ :=
  let n := Nat.ofDigitChars 10 w 0
  if decimal n = w then some n else none

/-- What is printed is read back. -/
@[simp] theorem readDecimal_decimal (n : ℕ) : readDecimal (decimal n) = some n := by
  have hdigits : Nat.ofDigitChars 10 (decimal n) 0 = n := Nat.ofDigitChars_ten_toDigits
  simp [readDecimal, hdigits]

/-- A numeral is not empty. -/
theorem decimal_ne_nil (n : ℕ) : decimal n ≠ [] := Nat.toDigits_ne_nil

/-- A numeral consists of digits. -/
theorem isDigit_of_mem_decimal {n : ℕ} {c : Char} (hc : c ∈ decimal n) : c.isDigit = true :=
  Nat.isDigit_of_mem_toDigits (by decide) (by decide) hc

/-! ## Fields -/

/-- A character between fields. -/
def isBlank (c : Char) : Bool := c = ' ' || c = '\t'

/-- The fields of a line. -/
def fields (l : Line) : List Line := (l.splitOnP isBlank).filter (· ≠ [])

/-- `$n`, empty if the line has fewer fields. -/
def field (n : ℕ) (l : Line) : Line := (fields l).getD (n - 1) []

/-- `END {print($n)}`: the field of the last line. -/
def lastField (n : ℕ) (file : List Line) : Line := (file.getLast?.map (field n)).getD []

/-- A blank separates the fields before it from those after it. -/
theorem fields_append_blank (l l' : Line) : fields (l ++ ' ' :: l') = fields l ++ fields l' := by
  rw [fields, List.splitOnP_append_cons l l' rfl, List.filter_append]
  rfl

/-- A word is a field. -/
theorem fields_of_word {w : Line} (hne : w ≠ []) (hw : ∀ c ∈ w, isBlank c = false) :
    fields w = [w] := by
  rw [fields, List.splitOnP_eq_singleton hw]
  simp [hne]

/-- A numeral is a field. -/
@[simp] theorem fields_decimal (n : ℕ) : fields (decimal n) = [decimal n] := by
  refine fields_of_word (decimal_ne_nil n) fun c hc => ?_
  have hdigit := isDigit_of_mem_decimal hc
  cases hblank : isBlank c with
  | false => rfl
  | true =>
    simp only [isBlank, Bool.or_eq_true, decide_eq_true_eq] at hblank
    rcases hblank with rfl | rfl <;> cases hdigit

/-- Of four words with a blank between any two the last one is the fourth field. -/
theorem field_four_of_words {a b c d : Line} (ha : fields a = [a]) (hb : fields b = [b])
    (hc : fields c = [c]) (hd : fields d = [d]) :
    field 4 (a ++ ' ' :: (b ++ ' ' :: (c ++ ' ' :: d))) = d := by
  rw [field, fields_append_blank, fields_append_blank, fields_append_blank, ha, hb, hc, hd]
  rfl

/-- The last line decides. -/
@[simp] theorem lastField_singleton (n : ℕ) (l : Line) : lastField n [l] = field n l := rfl

/-! ## Lines by number -/

section Select

variable {α : Type*} {p : ℕ → Bool} {k : ℕ} {xs ys : List α}

/-- The elements whose number passes a test, where the first one has a given number. -/
def select (p : ℕ → Bool) : ℕ → List α → List α
  | _, [] => []
  | k, x :: xs => if p k then x :: select p (k + 1) xs else select p (k + 1) xs

/-- Elements are numbered through two parts of a list. -/
theorem select_append : select p k (xs ++ ys) = select p k xs ++ select p (k + xs.length) ys := by
  induction xs generalizing k with
  | nil => rfl
  | cons x xs ih =>
    have hnumber : k + 1 + xs.length = k + (x :: xs).length := by
      rw [List.length_cons]
      omega
    rw [List.cons_append, select, select, ih, hnumber]
    split <;> rfl

/-- Tests that agree on the numbers of a part select the same of it. -/
theorem select_congr {q : ℕ → Bool} (h : ∀ j < xs.length, p (k + j) = q (k + j)) :
    select p k xs = select q k xs := by
  induction xs generalizing k with
  | nil => rfl
  | cons x xs ih =>
    have hfirst : p k = q k := h 0 (Nat.succ_pos _)
    have hrest : ∀ j < xs.length, p (k + 1 + j) = q (k + 1 + j) := by
      intro j hj
      rw [Nat.add_assoc, Nat.add_comm 1 j]
      exact h (j + 1) (Nat.succ_lt_succ hj)
    rw [select, select, hfirst, ih hrest]

/-- A test that all numbers pass selects everything. -/
theorem select_true (k : ℕ) (xs : List α) : select (fun _ => true) k xs = xs := by
  induction xs generalizing k with
  | nil => rfl
  | cons x xs ih => exact congrArg (List.cons x) (ih (k + 1))

/-- A test that no number passes selects nothing. -/
theorem select_false (k : ℕ) (xs : List α) : select (fun _ => false) k xs = [] := by
  induction xs generalizing k with
  | nil => rfl
  | cons x xs ih => exact ih (k + 1)

/-- A part where all numbers pass is selected. -/
theorem select_of_forall (h : ∀ j < xs.length, p (k + j) = true) : select p k xs = xs :=
  (select_congr h).trans (select_true k xs)

/-- A part where no number passes is not. -/
theorem select_of_forall_not (h : ∀ j < xs.length, p (k + j) = false) : select p k xs = [] :=
  (select_congr h).trans (select_false k xs)

end Select

section Sed

variable {before middle after : List Line} {n : ℕ}

/-- `sed -n "np"`. -/
def sedLine (n : ℕ) (file : List Line) : List Line := select (fun k => k = n) 1 file

/-- `sed -n "m,np"`: a range whose end is not after its start is its first line. -/
def sedRange (m n : ℕ) (file : List Line) : List Line :=
  select (fun k => k = m || (m < k && k ≤ n)) 1 file

/-- The line after a number of lines. -/
theorem sedLine_append_cons (l : Line) (hn : n = before.length + 1) :
    sedLine n (before ++ l :: after) = [l] := by
  subst hn
  have hbefore : select (fun k => decide (k = before.length + 1)) 1 before = [] :=
    select_of_forall_not fun j hj => decide_eq_false (by omega)
  have hafter :
      select (fun k => decide (k = before.length + 1)) (1 + before.length + 1) after = [] :=
    select_of_forall_not fun j hj => decide_eq_false (by omega)
  rw [sedLine, select_append, hbefore, select, hafter, if_pos (decide_eq_true (by omega))]
  rfl

/-- The lines before a range are not in it. -/
theorem sedRange_append {m : ℕ} (hm : m = before.length + 1) :
    sedRange m n (before ++ after) =
      select (fun k => k = m || (m < k && k ≤ n)) m after := by
  subst hm
  have hbefore : select (fun k => k = before.length + 1 ||
      (before.length + 1 < k && k ≤ n)) 1 before = [] := by
    refine select_of_forall_not fun j hj => ?_
    simp only [Bool.or_eq_false_iff, Bool.and_eq_false_iff, decide_eq_false_iff_not]
    omega
  rw [sedRange, select_append, hbefore, List.nil_append, Nat.add_comm 1]

/-- A range of as many lines as there are in a part of the file is this part. -/
theorem sedRange_of_ne_nil {m : ℕ} (hm : m = before.length + 1) (hmiddle : middle ≠ [])
    (hn : n + 1 = m + middle.length) : sedRange m n (before ++ (middle ++ after)) = middle := by
  have hpos := List.length_pos_iff.mpr hmiddle
  have hin : select (fun k => k = m || (m < k && k ≤ n)) m middle = middle := by
    refine select_of_forall fun j hj => ?_
    simp only [Bool.or_eq_true, Bool.and_eq_true, decide_eq_true_eq]
    omega
  have hout : select (fun k => k = m || (m < k && k ≤ n)) (m + middle.length) after = [] := by
    refine select_of_forall_not fun j hj => ?_
    simp only [Bool.or_eq_false_iff, Bool.and_eq_false_iff, decide_eq_false_iff_not]
    omega
  rw [sedRange_append hm, select_append, hin, hout, List.append_nil]

/-- A range that ends before it starts is the line at its start, if there is one. -/
theorem sedRange_of_lt {m : ℕ} (hm : m = before.length + 1) (hn : n < m) :
    sedRange m n (before ++ after) = after.take 1 := by
  rw [sedRange_append hm]
  cases after with
  | nil => rfl
  | cons l after =>
    have hout : select (fun k => k = m || (m < k && k ≤ n)) (m + 1) after = [] := by
      refine select_of_forall_not fun j hj => ?_
      simp only [Bool.or_eq_false_iff, Bool.and_eq_false_iff, decide_eq_false_iff_not]
      omega
    rw [select, hout, if_pos (by simp)]
    rfl

end Sed

end Text
