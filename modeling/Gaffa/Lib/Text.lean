import Gaffa.Lib.ByteString
import Mathlib.Data.List.Basic

/-!
# Text

Characters and their UTF-8 bytes, lines, fields between separators, decimal numbers: what a program
uses that keeps a table in a text file.

* `readToString_utf8`, `readToString_take`: text is read back; a piece of it only if the cut is
  between two characters.
* `lines_unlines`: the lines that were written, and an unfinished one behind them.
* `splitOnce_append`, `splitOnce_some`: the fields around a separator.
* `parseUnsigned_digits`, `ofDigitChars_take_lt`: numbers are read back, and a number that has lost
  digits is a smaller one.
-/

set_option autoImplicit false

namespace Text

open ByteString

/-! ## UTF-8 -/

/-- The bytes of a text. -/
def utf8 (cs : List Char) : Bytes := cs.flatMap String.utf8EncodeChar

/-- `Read::read_to_string`: the text that the bytes encode, if they are valid UTF-8. -/
def readToString (bs : Bytes) : Option (List Char) := bs.toByteArray.utf8Decode?.map Array.toList

@[simp] theorem utf8_nil : utf8 [] = [] := rfl

@[simp] theorem utf8_append (cs ds : List Char) : utf8 (cs ++ ds) = utf8 cs ++ utf8 ds :=
  List.flatMap_append

theorem toByteArray_utf8 (cs : List Char) : (utf8 cs).toByteArray = cs.utf8Encode := rfl

@[simp] theorem readToString_utf8 (cs : List Char) : readToString (utf8 cs) = some cs := by
  unfold readToString
  rw [toByteArray_utf8, List.utf8Decode?_utf8Encode]
  rfl

theorem utf8_of_readToString {bs : Bytes} {cs : List Char} (h : readToString bs = some cs) :
    utf8 cs = bs := by
  unfold readToString at h
  obtain ⟨a, ha, rfl⟩ := Option.map_eq_some_iff.1 h
  have hsome : bs.toByteArray.utf8Decode?.isSome := Option.isSome_of_eq_some ha
  have hget : (bs.toByteArray.utf8Decode?.get hsome).toList.utf8Encode = bs.toByteArray :=
    ByteArray.utf8Encode_get_utf8Decode?
  rw [Option.get_of_eq_some hsome ha, ← toByteArray_utf8] at hget
  have hlist := congrArg (fun b : ByteArray => b.data.toList) hget
  simpa using hlist

/-- **A piece of a text** that is valid UTF-8 ends between two characters. -/
theorem readToString_take {cs ds : List Char} {n : Nat}
    (h : readToString ((utf8 cs).take n) = some ds) :
    ds <+: cs ∧ utf8 ds = (utf8 cs).take n := by
  have hds := utf8_of_readToString h
  refine ⟨?_, hds⟩
  apply List.isPrefix_of_utf8Encode_append_eq_utf8Encode ((utf8 cs).drop n).toByteArray
  rw [← toByteArray_utf8, ← toByteArray_utf8, hds, ← List.toByteArray_append, List.take_append_drop]

theorem length_utf8_pos {c : Char} {cs : List Char} : 0 < (utf8 (c :: cs)).length := by
  have := c.utf8Size_pos
  simp only [utf8, List.flatMap_cons, List.length_append, String.length_utf8EncodeChar]
  omega

/-! ## Lines -/

/-- The line without a carriage return at its end. -/
def stripCr (line : List Char) : List Char :=
  if line.getLast? = some '\r' then line.dropLast else line

/-- The lines of a text that follows the unfinished line `line`. -/
def linesFrom (line : List Char) : List Char → List (List Char)
  | [] => if line = [] then [] else [line]
  | c :: cs => if c = '\n' then stripCr line :: linesFrom [] cs else linesFrom (line ++ [c]) cs

/-- `str::lines`. -/
def lines (cs : List Char) : List (List Char) := linesFrom [] cs

theorem linesFrom_append {line : List Char} (h : '\n' ∉ line) (before rest : List Char) :
    linesFrom before (line ++ rest) = linesFrom (before ++ line) rest := by
  induction line generalizing before with
  | nil => simp
  | cons c cs ih =>
    obtain ⟨hc, hcs⟩ : '\n' ≠ c ∧ '\n' ∉ cs := by simpa only [List.mem_cons, not_or] using h
    rw [List.cons_append, linesFrom, if_neg (Ne.symm hc), ih hcs]
    simp

/-- **Lines** that were written are read back, with what stands behind the last line break. -/
theorem lines_unlines {ls : List (List Char)} {rest : List Char}
    (hls : ∀ l ∈ ls, '\n' ∉ l ∧ l.getLast? ≠ some '\r') (hrest : '\n' ∉ rest) :
    lines (ls.flatMap (· ++ ['\n']) ++ rest) = ls ++ if rest = [] then [] else [rest] := by
  induction ls with
  | nil =>
    have hfrom := linesFrom_append hrest [] []
    rw [List.append_nil, List.nil_append] at hfrom
    simp only [lines, List.flatMap_nil, List.nil_append, hfrom, linesFrom]
  | cons l ls ih =>
    obtain ⟨⟨hl, hcr⟩, hls⟩ := List.forall_mem_cons.1 hls
    unfold lines at ih ⊢
    rw [List.flatMap_cons, List.append_assoc, List.append_assoc, linesFrom_append hl]
    simp only [List.nil_append, linesFrom, if_true, ih hls, stripCr,
      if_neg hcr, List.cons_append]

theorem stripCr_subset {line : List Char} : ∀ c ∈ stripCr line, c ∈ line := by
  intro c hc
  rw [stripCr] at hc
  split at hc
  · exact List.dropLast_subset line hc
  · exact hc

theorem newline_not_mem_linesFrom {cs line : List Char} (h : '\n' ∉ line) :
    ∀ l ∈ linesFrom line cs, '\n' ∉ l := by
  induction cs generalizing line with
  | nil =>
    intro l hl
    rw [linesFrom] at hl
    split at hl
    · cases hl
    · rw [List.mem_singleton.1 hl]
      exact h
  | cons c cs ih =>
    rw [linesFrom]
    split
    · refine List.forall_mem_cons.2 ⟨?_, ih List.not_mem_nil⟩
      intro hmem
      exact h (stripCr_subset _ hmem)
    · rename_i hc
      apply ih
      simp only [List.mem_append, List.mem_singleton, not_or]
      exact ⟨h, Ne.symm hc⟩

theorem newline_not_mem_lines {cs : List Char} : ∀ l ∈ lines cs, '\n' ∉ l :=
  newline_not_mem_linesFrom List.not_mem_nil

/-! ## Fields -/

/-- `str::split_once`. -/
def splitOnce (sep : Char) : List Char → Option (List Char × List Char)
  | [] => none
  | c :: cs => if c = sep then some ([], cs) else (splitOnce sep cs).map fun p => (c :: p.1, p.2)

theorem splitOnce_append {sep : Char} {field : List Char} (rest : List Char) (h : sep ∉ field) :
    splitOnce sep (field ++ sep :: rest) = some (field, rest) := by
  induction field with
  | nil => simp [splitOnce]
  | cons c cs ih =>
    obtain ⟨hc, hcs⟩ : sep ≠ c ∧ sep ∉ cs := by simpa only [List.mem_cons, not_or] using h
    simp [splitOnce, Ne.symm hc, ih hcs]

theorem splitOnce_none {sep : Char} {cs : List Char} (h : sep ∉ cs) : splitOnce sep cs = none := by
  induction cs with
  | nil => rfl
  | cons c cs ih =>
    obtain ⟨hc, hcs⟩ : sep ≠ c ∧ sep ∉ cs := by simpa only [List.mem_cons, not_or] using h
    simp [splitOnce, Ne.symm hc, ih hcs]

theorem splitOnce_some {sep : Char} {cs field rest : List Char}
    (h : splitOnce sep cs = some (field, rest)) : cs = field ++ sep :: rest ∧ sep ∉ field := by
  induction cs generalizing field with
  | nil => cases h
  | cons c cs ih =>
    rw [splitOnce] at h
    split at h
    · rename_i hc
      cases h
      exact ⟨by rw [hc]; rfl, List.not_mem_nil⟩
    · rename_i hc
      obtain ⟨⟨f, r⟩, hsplit, heq⟩ := Option.map_eq_some_iff.1 h
      cases heq
      obtain ⟨hcs, hmem⟩ := ih hsplit
      exact ⟨by rw [hcs]; rfl, by simpa only [List.mem_cons, not_or] using ⟨Ne.symm hc, hmem⟩⟩

/-! ## Numbers -/

/-- `to_string` of an unsigned number. -/
def digits (n : Nat) : List Char := Nat.toDigits 10 n

/-- `str::parse` for a `w`-bit unsigned number: an optional plus sign and digits, without
overflow. -/
def parseUnsigned (w : Nat) (s : List Char) : Option Nat :=
  let digits := match s with
    | '+' :: rest => rest
    | s => s
  if digits ≠ [] ∧ digits.all Char.isDigit ∧ Nat.ofDigitChars 10 digits 0 < 2 ^ w then
    some (Nat.ofDigitChars 10 digits 0)
  else none

theorem isDigit_of_mem_digits {n : Nat} {c : Char} (h : c ∈ digits n) : c.isDigit = true :=
  Nat.isDigit_of_mem_toDigits (by decide) (by decide) h

theorem digits_ne_nil (n : Nat) : digits n ≠ [] := Nat.toDigits_ne_nil

theorem not_mem_digits {n : Nat} {c : Char} (hc : c.isDigit = false) : c ∉ digits n := by
  intro h
  rw [isDigit_of_mem_digits h] at hc
  cases hc

@[simp] theorem ofDigitChars_digits (n : Nat) : Nat.ofDigitChars 10 (digits n) 0 = n :=
  Nat.ofDigitChars_ten_toDigits

/-- Digits without a sign. -/
theorem parseUnsigned_of_digits {w : Nat} {s : List Char} (hs : ∀ c ∈ s, c.isDigit = true)
    (hne : s ≠ []) (hlt : Nat.ofDigitChars 10 s 0 < 2 ^ w) :
    parseUnsigned w s = some (Nat.ofDigitChars 10 s 0) := by
  unfold parseUnsigned
  split
  · exact absurd (hs '+' (List.mem_cons_self ..)) (by decide)
  · simp only
    rw [if_pos ⟨hne, List.all_eq_true.2 hs, hlt⟩]

theorem parseUnsigned_nil (w : Nat) : parseUnsigned w [] = none := rfl

theorem parseUnsigned_digits {w n : Nat} (h : n < 2 ^ w) : parseUnsigned w (digits n) = some n := by
  rw [parseUnsigned_of_digits (fun c hc => isDigit_of_mem_digits hc) (digits_ne_nil n)
    (by rw [ofDigitChars_digits]; exact h), ofDigitChars_digits]

/-- The first digits of a number spell a smaller one. -/
theorem ofDigitChars_take_le (k n : Nat) : Nat.ofDigitChars 10 ((digits n).take k) 0 ≤ n := by
  induction n using Nat.strongRecOn generalizing k with
  | ind n ih =>
    by_cases hlt : n < 10
    · cases k with
      | zero => exact Nat.zero_le _
      | succ k =>
        rw [List.take_of_length_le, ofDigitChars_digits]
        simp [digits, Nat.toDigits_of_lt_base hlt]
    · have hsplit : digits n = digits (n / 10) ++ [Nat.digitChar (n % 10)] :=
        Nat.toDigits_of_base_le (by decide) (Nat.not_lt.1 hlt)
      by_cases hk : k ≤ (digits (n / 10)).length
      · rw [hsplit, List.take_append_of_le_length hk]
        have := ih (n / 10) (by omega) k
        omega
      · rw [List.take_of_length_le, ofDigitChars_digits]
        rw [hsplit, List.length_append, List.length_singleton]
        omega

/-- **A number that has lost digits** is a smaller one. -/
theorem ofDigitChars_take_lt {k n : Nat} (hpos : 0 < k) (hk : k < (digits n).length) :
    Nat.ofDigitChars 10 ((digits n).take k) 0 < n := by
  by_cases hlt : n < 10
  · rw [digits, Nat.toDigits_of_lt_base hlt, List.length_singleton] at hk
    omega
  · have hsplit : digits n = digits (n / 10) ++ [Nat.digitChar (n % 10)] :=
      Nat.toDigits_of_base_le (by decide) (Nat.not_lt.1 hlt)
    rw [hsplit, List.length_append, List.length_singleton] at hk
    rw [hsplit, List.take_append_of_le_length (by omega)]
    have := ofDigitChars_take_le k (n / 10)
    omega

end Text
