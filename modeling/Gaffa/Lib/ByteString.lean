import Mathlib.Data.List.Basic
import Mathlib.Data.Nat.Basic
import Mathlib.Tactic.Ring

/-!
# Byte strings: fixed-width integers, exact reads, writes into a file, fixed-size slots

* `toBe` / `ofBe`: big-endian integers; `ofBe_toBe` reads back the low bits that were written, and
  `toBe_ofBe` spells a number as it was read.
* `readExact`: the first `n` bytes and the rest, or nothing when fewer are left.
* `writeAt`: a write at a file position, as a file system performs it.
* `slot`: the `i`-th piece of `w` bytes; `slot_writeAt` says which slots a write changes.
-/

set_option autoImplicit false

namespace ByteString

abbrev Bytes := List UInt8

/-! ## Big-endian integers -/

/-- The low `w` bytes of `n`, most significant first. -/
def toBe : Nat → Nat → Bytes
  | 0, _ => []
  | w + 1, n => UInt8.ofNat (n / 256 ^ w) :: toBe w n

/-- The number that a byte string spells, most significant byte first. -/
def ofBe (bs : Bytes) : Nat := bs.foldl (fun n b => n * 256 + b.toNat) 0

@[simp] theorem length_toBe (w n : Nat) : (toBe w n).length = w := by
  induction w with
  | zero => rfl
  | succ w ih => simp [toBe, ih]

theorem foldl_toBe (w n acc : Nat) :
    (toBe w n).foldl (fun n b => n * 256 + b.toNat) acc = acc * 256 ^ w + n % 256 ^ w := by
  induction w generalizing acc with
  | zero => simp [toBe, Nat.mod_one]
  | succ w ih =>
    have hbyte : (UInt8.ofNat (n / 256 ^ w)).toNat = n / 256 ^ w % 256 := UInt8.toNat_ofNat'
    have hsplit : n % 256 ^ (w + 1) = n % 256 ^ w + 256 ^ w * (n / 256 ^ w % 256) := by
      rw [Nat.pow_succ, Nat.mod_mul]
    simp only [toBe, List.foldl_cons, ih, hbyte]
    rw [hsplit]
    ring

/-- What was written in `w` bytes is read back modulo `256 ^ w`. -/
theorem ofBe_toBe (w n : Nat) : ofBe (toBe w n) = n % 256 ^ w := by
  unfold ofBe
  rw [foldl_toBe]; simp

theorem ofBe_toBe_of_lt {w n : Nat} (h : n < 256 ^ w) : ofBe (toBe w n) = n := by
  rw [ofBe_toBe, Nat.mod_eq_of_lt h]

theorem foldl_ofBe (bs : Bytes) (acc : Nat) :
    bs.foldl (fun n b => n * 256 + b.toNat) acc = acc * 256 ^ bs.length + ofBe bs := by
  unfold ofBe
  induction bs generalizing acc with
  | nil => simp
  | cons b bs ih =>
    rw [List.foldl_cons, List.foldl_cons, ih (acc * 256 + b.toNat), ih (0 * 256 + b.toNat),
      List.length_cons, Nat.pow_succ]
    ring

theorem ofBe_cons (b : UInt8) (bs : Bytes) :
    ofBe (b :: bs) = b.toNat * 256 ^ bs.length + ofBe bs := by
  rw [ofBe, List.foldl_cons, foldl_ofBe, Nat.zero_mul, Nat.zero_add]

theorem ofBe_lt {w : Nat} {bs : Bytes} (h : bs.length = w) : ofBe bs < 256 ^ w := by
  subst h
  induction bs with
  | nil => exact Nat.one_pos
  | cons b bs ih =>
    have hb : b.toNat + 1 ≤ 256 := b.toNat_lt
    calc ofBe (b :: bs) < (b.toNat + 1) * 256 ^ bs.length := by
          rw [ofBe_cons, Nat.add_mul, Nat.one_mul]; omega
      _ ≤ 256 ^ (b :: bs).length := by
          rw [List.length_cons, Nat.pow_succ, Nat.mul_comm]
          exact Nat.mul_le_mul_left _ hb

/-- Byte strings of one length spell different numbers. -/
theorem ofBe_inj {as bs : Bytes} (hlength : as.length = bs.length) (h : ofBe as = ofBe bs) :
    as = bs := by
  induction as generalizing bs with
  | nil => exact (List.length_eq_zero_iff.1 hlength.symm).symm
  | cons a as ih =>
    cases bs with
    | nil => cases hlength
    | cons b bs =>
      have hrest : as.length = bs.length := Nat.succ.inj hlength
      rw [ofBe_cons, ofBe_cons, hrest] at h
      have has : ofBe as < 256 ^ bs.length := ofBe_lt hrest
      have hdigit : a.toNat = b.toNat := by
        have hdiv := congrArg (· / 256 ^ bs.length) h
        simpa only [Nat.mul_comm _ (256 ^ bs.length), Nat.mul_add_div (Nat.pow_pos (Nat.succ_pos 255)),
          Nat.div_eq_of_lt has, Nat.div_eq_of_lt (ofBe_lt rfl), Nat.add_zero] using hdiv
      rw [hdigit] at h
      rw [UInt8.toNat_inj.1 hdigit, ih hrest (Nat.add_left_cancel h)]

/-- A byte string is the spelling of its number. -/
theorem toBe_ofBe {w : Nat} {bs : Bytes} (h : bs.length = w) : toBe w (ofBe bs) = bs :=
  ofBe_inj (by rw [length_toBe, h]) (ofBe_toBe_of_lt (ofBe_lt h))

/-! ## Exact reads -/

/-- `Read::read_exact` on a slice: `n` bytes and what is left, or nothing if the slice is short. -/
def readExact (n : Nat) (bs : Bytes) : Option (Bytes × Bytes) :=
  if n ≤ bs.length then some (bs.take n, bs.drop n) else none

theorem readExact_append {n : Nat} {field : Bytes} (rest : Bytes) (h : field.length = n) :
    readExact n (field ++ rest) = some (field, rest) := by
  subst h
  simp [readExact]

theorem readExact_short {n : Nat} {bs : Bytes} (h : bs.length < n) : readExact n bs = none := by
  simp [readExact, h]

theorem readExact_some {n : Nat} {bs field rest : Bytes}
    (h : readExact n bs = some (field, rest)) : bs = field ++ rest ∧ field.length = n := by
  unfold readExact at h
  split at h
  · rename_i hn
    cases h
    exact ⟨(List.take_append_drop n bs).symm, by simp [hn]⟩
  · cases h

/-! ## Writes at a file position -/

/-- `data` written at position `pos`; a gap behind the end of the file reads as zeros. -/
def writeAt (file : Bytes) (pos : Nat) (data : Bytes) : Bytes :=
  file.take pos ++ List.replicate (pos - file.length) 0 ++ data ++ file.drop (pos + data.length)

theorem length_writeAt (file : Bytes) (pos : Nat) (data : Bytes) :
    (writeAt file pos data).length = max file.length (pos + data.length) := by
  simp [writeAt]; omega

/-- A write at the end of the file appends. -/
theorem writeAt_end (file data : Bytes) : writeAt file file.length data = file ++ data := by
  simp [writeAt]

/-- A write behind the front of a file. -/
theorem writeAt_append (front rest data : Bytes) :
    writeAt (front ++ rest) front.length data = front ++ data ++ rest.drop data.length := by
  simp [writeAt]

theorem getElem?_writeAt {file : Bytes} {pos : Nat} (data : Bytes) (h : pos ≤ file.length)
    (i : Nat) :
    (writeAt file pos data)[i]? =
      if pos ≤ i ∧ i < pos + data.length then data[i - pos]? else file[i]? := by
  have hz : pos - file.length = 0 := by omega
  simp only [writeAt, hz, List.replicate_zero, List.append_nil, List.append_assoc]
  by_cases h1 : i < pos
  · rw [if_neg (by omega), List.getElem?_append_left (by simp; omega), List.getElem?_take_of_lt h1]
  · rw [List.getElem?_append_right (by simp; omega)]
    simp only [List.length_take, Nat.min_eq_left h]
    by_cases h2 : i < pos + data.length
    · rw [if_pos ⟨by omega, h2⟩, List.getElem?_append_left (by omega)]
    · rw [if_neg (by omega), List.getElem?_append_right (by omega), List.getElem?_drop]
      congr 1
      omega

theorem getElem?_writeAt_of_lt {file : Bytes} {i : Nat} (pos : Nat) (data : Bytes)
    (h : i < file.length) :
    (writeAt file pos data)[i]? =
      if pos ≤ i ∧ i < pos + data.length then data[i - pos]? else file[i]? := by
  by_cases hpos : pos ≤ file.length
  · exact getElem?_writeAt data hpos i
  · rw [if_neg (by omega), writeAt, List.append_assoc, List.append_assoc,
      List.getElem?_append_left (by rw [List.length_take]; omega),
      List.getElem?_take_of_lt (by omega)]

/-- A write of a piece of a text keeps what the file already has of it. -/
theorem take_writeAt_piece {file front data back : Bytes} {q : Nat}
    (hfile : file.take q = (front ++ data ++ back).take q)
    (hq : q ≤ (front ++ data ++ back).length) :
    (writeAt file front.length data).take q = (front ++ data ++ back).take q := by
  have hlen := congrArg List.length hfile
  simp only [List.length_take] at hlen
  rw [← hfile]
  apply List.ext_getElem?
  intro i
  by_cases hi : i < q
  · have hget : file[i]? = (front ++ data ++ back)[i]? := by
      have := congrArg (·[i]?) hfile
      simpa only [List.getElem?_take_of_lt hi] using this
    rw [List.getElem?_take_of_lt hi, List.getElem?_take_of_lt hi,
      getElem?_writeAt_of_lt front.length data (by omega)]
    split
    · rename_i hin
      rw [hget, List.append_assoc, List.getElem?_append_right hin.1,
        List.getElem?_append_left (by omega)]
    · rfl
  · rw [List.getElem?_take, if_neg hi, List.getElem?_take, if_neg hi]

/-- A write of the next piece of a text. -/
theorem take_writeAt_next {file front : Bytes} (data : Bytes)
    (h : file.take front.length = front) :
    (writeAt file front.length data).take (front.length + data.length) = front ++ data := by
  rw [← List.take_append_drop front.length file, h, writeAt_append,
    List.take_append_of_le_length (by simp), List.take_of_length_le (by simp)]

/-! ## Fixed-size slots -/

/-- The `i`-th piece of `w` bytes. -/
def slot (w i : Nat) (file : Bytes) : Bytes := (file.drop (w * i)).take w

theorem getElem?_slot {w i k : Nat} {file : Bytes} (hk : k < w) :
    (slot w i file)[k]? = file[w * i + k]? := by
  simp [slot, List.getElem?_take_of_lt hk, List.getElem?_drop]

theorem slot_append {w i : Nat} {front : Bytes} (rest : Bytes) (h : w * (i + 1) ≤ front.length) :
    slot w i (front ++ rest) = slot w i front := by
  apply List.ext_getElem?
  intro k
  rw [Nat.mul_add, Nat.mul_one] at h
  by_cases hk : k < w
  · rw [getElem?_slot hk, getElem?_slot hk, List.getElem?_append_left (by omega)]
  · have hlen : ∀ f : Bytes, (slot w i f).length ≤ w := fun f => by simp [slot]
    have h₁ := hlen (front ++ rest)
    have h₂ := hlen front
    rw [List.getElem?_eq_none (by omega), List.getElem?_eq_none (by omega)]

/-- A write of one slot changes that slot and no other. -/
theorem slot_writeAt {w j : Nat} {file data : Bytes} (hj : w * j ≤ file.length)
    (hd : data.length = w) (i : Nat) :
    slot w i (writeAt file (w * j) data) = if i = j then data else slot w i file := by
  apply List.ext_getElem?
  intro k
  by_cases hk : k < w
  · rw [getElem?_slot hk, getElem?_writeAt data hj]
    split_ifs with hin hij hij
    · subst hij; congr 1; omega
    · exfalso
      obtain ⟨h1, h2⟩ := hin
      rw [hd] at h2
      rcases Nat.lt_or_gt_of_ne hij with hlt | hgt
      · have : w * (i + 1) ≤ w * j := Nat.mul_le_mul_left w hlt
        rw [Nat.mul_add, Nat.mul_one] at this; omega
      · have : w * (j + 1) ≤ w * i := Nat.mul_le_mul_left w hgt
        rw [Nat.mul_add, Nat.mul_one] at this; omega
    · subst hij
      exact absurd ⟨Nat.le_add_right _ _, by omega⟩ hin
    · rw [getElem?_slot hk]
  · have hlen : ∀ f : Bytes, (slot w i f).length ≤ w := fun f => by simp [slot]
    rw [List.getElem?_eq_none (by have := hlen (writeAt file (w * j) data); omega)]
    split_ifs
    · rw [List.getElem?_eq_none (by omega)]
    · rw [List.getElem?_eq_none (by have := hlen file; omega)]

end ByteString
