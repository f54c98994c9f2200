import Gaffa.Lib.ByteString
import Gaffa.Lib.Table
import Mathlib.Data.List.Basic

/-!
# Segment file names and the partition directory

`LogSegment::log_path` and `LogSegment::index_path` name a segment's files after its base offset,
padded to twenty digits; `Partition::open_with_config` reads the base offsets back from the
directory.  A file name is a list of characters, a directory a finite map from names to contents.

`segmentOffset_logPath` and `segmentOffset_indexPath`: the names that a segment writes are read
back as its base offset, and only from the log file.
-/

set_option autoImplicit false

namespace Gaffa

open ByteString

abbrev FileName := List Char

/-- A partition directory. -/
abbrev Dir := Table FileName Bytes

/-- `format!("{:020}", n)`. -/
def padded (n : Nat) : List Char :=
  List.replicate (20 - (Nat.toDigits 10 n).length) '0' ++ Nat.toDigits 10 n

/-- `LogSegment::log_path`. -/
def logPath (baseOffset : Nat) : FileName := padded baseOffset ++ ['.', 'l', 'o', 'g']

/-- `LogSegment::index_path`. -/
def indexPath (baseOffset : Nat) : FileName :=
  padded baseOffset ++ ['.', 'i', 'n', 'd', 'e', 'x']

/-- `str::parse::<u64>`: an optional plus sign and digits, without overflow. -/
def parseU64 (s : List Char) : Option Nat :=
  let digits := match s with
    | '+' :: rest => rest
    | s => s
  if digits ≠ [] ∧ digits.all Char.isDigit ∧ Nat.ofDigitChars 10 digits 0 < 2 ^ 64 then
    some (Nat.ofDigitChars 10 digits 0)
  else none

/-- `Path::file_stem` and `Path::extension`: split at the last dot, unless it starts the name. -/
def splitExtension (name : FileName) : FileName × Option FileName :=
  let ext := (name.reverse.takeWhile (· ≠ '.')).reverse
  let stem := name.take (name.length - ext.length - 1)
  if stem = [] then (name, none) else (stem, some ext)

/-- The base offset that `Partition::open_with_config` reads from a directory entry. -/
def segmentOffset (name : FileName) : Option Nat :=
  match splitExtension name with
  | (stem, some ext) => if ext = ['l', 'o', 'g'] then parseU64 stem else none
  | (_, none) => none

/-! ## Reading names back -/

theorem padded_ne_nil (n : Nat) : padded n ≠ [] := by
  simp [padded, Nat.toDigits_ne_nil]

theorem isDigit_of_mem_padded {n : Nat} {c : Char} (h : c ∈ padded n) : c.isDigit = true := by
  unfold padded at h
  rcases List.mem_append.1 h with h | h
  · rw [List.eq_of_mem_replicate h]; rfl
  · exact Nat.isDigit_of_mem_toDigits (by decide) (by decide) h

theorem ofDigitChars_padded (n : Nat) : Nat.ofDigitChars 10 (padded n) 0 = n := by
  unfold padded
  rw [Nat.ofDigitChars_append, Nat.ofDigitChars_replicate_zero, Nat.mul_zero,
    Nat.ofDigitChars_ten_toDigits]

theorem parseU64_padded {n : Nat} (h : n < 2 ^ 64) : parseU64 (padded n) = some n := by
  have hhead : (match padded n with
      | '+' :: rest => rest
      | s => s) = padded n := by
    split
    · rename_i rest heq
      have := isDigit_of_mem_padded (n := n) (c := '+') (by rw [heq]; simp)
      exact absurd this (by decide)
    · rfl
  unfold parseU64
  simp only [hhead, ofDigitChars_padded]
  rw [if_pos ⟨padded_ne_nil n, List.all_eq_true.2 fun c hc => isDigit_of_mem_padded hc, h⟩]

theorem splitExtension_append {stem ext : FileName} (hs : stem ≠ []) (he : '.' ∉ ext) :
    splitExtension (stem ++ '.' :: ext) = (stem, some ext) := by
  have htake : ((stem ++ '.' :: ext).reverse.takeWhile (· ≠ '.')).reverse = ext := by
    have : (stem ++ '.' :: ext).reverse = ext.reverse ++ '.' :: stem.reverse := by simp
    rw [this, List.takeWhile_append_of_pos (by intro c hc; simp; rintro rfl; simp_all)]
    simp
  unfold splitExtension
  simp only [htake]
  have hlen : (stem ++ '.' :: ext).length - ext.length - 1 = stem.length := by simp; omega
  rw [hlen, List.take_left', if_neg hs]
  rfl

/-- A name with an extension is its stem, a dot and the extension. -/
theorem splitExtension_some {name stem ext : FileName}
    (h : splitExtension name = (stem, some ext)) : name = stem ++ '.' :: ext ∧ stem ≠ [] := by
  obtain ⟨tail, htail⟩ : ∃ tail, tail = name.reverse.takeWhile (· ≠ '.') := ⟨_, rfl⟩
  have hname : name = (name.reverse.dropWhile (· ≠ '.')).reverse ++ tail.reverse := by
    rw [htail, ← List.reverse_append, List.takeWhile_append_dropWhile, List.reverse_reverse]
  unfold splitExtension at h
  simp only [← htail] at h
  split at h
  · cases h
  rename_i hstem
  cases h
  refine ⟨?_, hstem⟩
  cases hdrop : name.reverse.dropWhile (· ≠ '.') with
  | nil =>
    rw [hdrop] at hname
    have hlen := congrArg List.length hname
    simp only [List.reverse_nil, List.nil_append] at hlen
    refine absurd ?_ hstem
    rw [List.take_eq_nil_iff]
    exact Or.inl (by omega)
  | cons c rest =>
    have hc : c = '.' := by
      have := List.head?_dropWhile_not (· ≠ '.') name.reverse
      rw [hdrop] at this
      simpa using this
    rw [hdrop, hc, List.reverse_cons, List.append_assoc] at hname
    have hlen := congrArg List.length hname
    simp only [List.length_append, List.length_reverse, List.singleton_append,
      List.length_cons] at hlen
    rw [show name.length - tail.reverse.length - 1 = rest.reverse.length by
      simp only [List.length_reverse]
      omega]
    conv => lhs; rw [hname]
    conv => rhs; rw [hname]
    simp

theorem segmentOffset_logPath {b : Nat} (h : b < 2 ^ 64) : segmentOffset (logPath b) = some b := by
  unfold segmentOffset logPath
  rw [splitExtension_append (padded_ne_nil b) (by decide)]
  simp [parseU64_padded h]

theorem segmentOffset_indexPath (b : Nat) : segmentOffset (indexPath b) = none := by
  unfold segmentOffset indexPath
  rw [splitExtension_append (padded_ne_nil b) (by decide)]
  simp

theorem padded_injective {a b : Nat} (h : padded a = padded b) : a = b := by
  rw [← ofDigitChars_padded a, h, ofDigitChars_padded]

theorem logPath_inj {a b : Nat} : logPath a = logPath b ↔ a = b :=
  ⟨fun h => padded_injective (List.append_cancel_right h), fun h => by rw [h]⟩

theorem indexPath_inj {a b : Nat} : indexPath a = indexPath b ↔ a = b :=
  ⟨fun h => padded_injective (List.append_cancel_right h), fun h => by rw [h]⟩

theorem logPath_ne_indexPath (a b : Nat) : logPath a ≠ indexPath b := by
  intro h
  have h1 : splitExtension (logPath a) = (padded a, some ['l', 'o', 'g']) :=
    splitExtension_append (padded_ne_nil a) (by decide)
  have h2 : splitExtension (indexPath b) = (padded b, some ['i', 'n', 'd', 'e', 'x']) :=
    splitExtension_append (padded_ne_nil b) (by decide)
  rw [h, h2] at h1
  simp at h1

end Gaffa
