import Aesd.Lib.CInt
import Mathlib.Data.List.TakeWhile

/-!
# Formatted input

`sscanf` for formats of plain characters and `%u`, as the C library does it,
and the decimal text it reads back: `%u` skips white space, takes a sign and
then all digits that follow, converts them as `strtoul` does (saturating at
the largest `unsigned long`) and stores the low 32 bits. A directive that
fails ends the scan; what was assigned before stays assigned.
-/

namespace Aesd.Lib

/-- `isspace` of the C locale. -/
def isSpace (c : UInt8) : Bool := c == 32 || (9 ≤ c && c ≤ 13)

/-- `isdigit`. -/
def isDigit (c : UInt8) : Bool := 48 ≤ c && c ≤ 57

/-- The value of a string of digits. -/
def digitsValue (ds : List UInt8) : Nat :=
  ds.foldl (fun v d => 10 * v + (d.toNat - 48)) 0

/-- An optional sign: whether it is a minus, and what follows. -/
def scanSign : List UInt8 → Bool × List UInt8
  | 43 :: s => (false, s)
  | 45 :: s => (true, s)
  | s => (false, s)

/-- `strtoul` on a sign and digits. -/
def strtoul (negative : Bool) (ds : List UInt8) : Nat :=
  if 2 ^ 64 ≤ digitsValue ds then 2 ^ 64 - 1
  else if negative then (2 ^ 64 - digitsValue ds) % 2 ^ 64
  else digitsValue ds

/-- `%u`: the number stored and the rest of the input. -/
def scanU (s : List UInt8) : Option (UInt32 × List UInt8) :=
  let (negative, s) := scanSign (s.dropWhile isSpace)
  let ds := s.takeWhile isDigit
  if ds = [] then none
  else some (UInt32.ofNat (strtoul negative ds), s.dropWhile isDigit)

/-- A directive of a format: a character that is not white space, or `%u`. -/
inductive Directive where
  | lit (c : UInt8)
  | u
  deriving DecidableEq, Repr

/-- `sscanf`: the numbers assigned, in order. -/
def sscanf : List Directive → List UInt8 → List UInt32
  | [], _ => []
  | .lit c :: fmt, d :: s => if d = c then sscanf fmt s else []
  | .lit _ :: _, [] => []
  | .u :: fmt, s =>
      match scanU s with
      | none => []
      | some (x, s) => x :: sscanf fmt s

/-- `n` in decimal. -/
def decimal (n : Nat) : List UInt8 :=
  (Nat.toDigits 10 n).map fun c => UInt8.ofNat c.toNat

/-! ## Decimal text -/

theorem digit_of_mem_toDigits {c : Char} {n : Nat} (h : c ∈ Nat.toDigits 10 n) :
    48 ≤ c.toNat ∧ c.toNat ≤ 57 := by
  have hd := Nat.isDigit_of_mem_toDigits (by decide) (by decide) h
  simp only [Char.isDigit, Bool.and_eq_true, decide_eq_true_eq] at hd
  exact hd

theorem toNat_ofNat_of_lt {n : Nat} (h : n < 256) : (UInt8.ofNat n).toNat = n := by
  simpa using Nat.mod_eq_of_lt h

/-- Every byte of a number's text is a digit. -/
theorem isDigit_of_mem_decimal {c : UInt8} {n : Nat} (h : c ∈ decimal n) :
    isDigit c = true := by
  obtain ⟨d, hd, rfl⟩ := List.mem_map.mp h
  obtain ⟨h1, h2⟩ := digit_of_mem_toDigits hd
  have hto := toNat_ofNat_of_lt (n := d.toNat) (by omega)
  simp only [isDigit, Bool.and_eq_true, decide_eq_true_eq, UInt8.le_iff_toNat_le, hto]
  exact ⟨h1, h2⟩

theorem decimal_ne_nil (n : Nat) : decimal n ≠ [] := by
  simp [decimal, Nat.toDigits_ne_nil]

/-- **The text of a number has its value.** -/
theorem digitsValue_decimal (n : Nat) : digitsValue (decimal n) = n := by
  have hfold : ∀ (cs : List Char) (v : Nat), (∀ c ∈ cs, 48 ≤ c.toNat ∧ c.toNat ≤ 57) →
      (cs.map fun c => UInt8.ofNat c.toNat).foldl (fun v d => 10 * v + (d.toNat - 48)) v
        = Nat.ofDigitChars 10 cs v := by
    intro cs
    induction cs with
    | nil => simp
    | cons c cs ih =>
        intro v hcs
        have hc := hcs c (by simp)
        rw [List.map_cons, List.foldl_cons, ih _ fun d hd => hcs d (by simp [hd]),
          Nat.ofDigitChars_cons, toNat_ofNat_of_lt (by omega)]
        rfl
  rw [digitsValue, decimal, hfold _ _ fun c hc => digit_of_mem_toDigits hc]
  exact Nat.ofDigitChars_ten_toDigits

/-! ## Reading it back -/

theorem takeWhile_digits {ds s : List UInt8} (hds : ∀ c ∈ ds, isDigit c = true)
    (hs : ∀ c ∈ s.head?, isDigit c = false) :
    (ds ++ s).takeWhile isDigit = ds ∧ (ds ++ s).dropWhile isDigit = s := by
  have hstop : s.takeWhile isDigit = [] ∧ s.dropWhile isDigit = s := by
    cases s with
    | nil => simp
    | cons c s =>
        have hc := hs c (by simp)
        simp [hc]
  rw [List.takeWhile_append_of_pos hds, List.dropWhile_append_of_pos hds, hstop.1, hstop.2]
  simp

/-- A text that starts with a digit has no white space or sign to skip. -/
theorem scanSign_of_digit {c : UInt8} (hc : isDigit c = true) (s : List UInt8) :
    scanSign ((c :: s).dropWhile isSpace) = (false, c :: s) := by
  simp only [isDigit, Bool.and_eq_true, decide_eq_true_eq, UInt8.le_iff_toNat_le] at hc
  have h48 : (48 : UInt8).toNat = 48 := rfl
  have hspace : isSpace c = false := by
    have h13 : ¬ c ≤ 13 := by
      rw [UInt8.le_iff_toNat_le]
      have : (13 : UInt8).toNat = 13 := rfl
      omega
    have h32 : c ≠ 32 := by
      rintro rfl
      have : (32 : UInt8).toNat = 32 := rfl
      omega
    simp [isSpace, h13, h32]
  have h43 : c ≠ 43 := by
    rintro rfl
    have : (43 : UInt8).toNat = 43 := rfl
    omega
  have h45 : c ≠ 45 := by
    rintro rfl
    have : (45 : UInt8).toNat = 45 := rfl
    omega
  rw [List.dropWhile_cons, if_neg (by simp [hspace])]
  unfold scanSign
  split
  · rename_i heq
    cases heq
    exact absurd rfl h43
  · rename_i heq
    cases heq
    exact absurd rfl h45
  · rfl

/-- The digits `ds` are the number `x`, with leading zeros or without. -/
structure IsNumber (ds : List UInt8) (x : UInt32) : Prop where
  nonempty : ds ≠ []
  digits : ∀ c ∈ ds, isDigit c = true
  value : digitsValue ds = x.toNat

theorem isNumber_decimal (x : UInt32) : IsNumber (decimal x.toNat) x :=
  ⟨decimal_ne_nil _, fun _ hc => isDigit_of_mem_decimal hc, digitsValue_decimal _⟩

/-- Digits that are the number of a `uint32_t`. -/
def IsDecimal (ds : List UInt8) : Prop :=
  ds ≠ [] ∧ (∀ c ∈ ds, isDigit c = true) ∧ digitsValue ds < UInt32.size

instance (ds : List UInt8) : Decidable (IsDecimal ds) :=
  inferInstanceAs (Decidable (_ ∧ _ ∧ _))

theorem isDecimal_iff (ds : List UInt8) : IsDecimal ds ↔ ∃ x, IsNumber ds x := by
  constructor
  · rintro ⟨hne, hdigits, hlt⟩
    exact ⟨UInt32.ofNat (digitsValue ds), hne, hdigits, (UInt32.toNat_ofNat_of_lt hlt).symm⟩
  · rintro ⟨x, hne, hdigits, hvalue⟩
    exact ⟨hne, hdigits, hvalue ▸ x.toNat_lt_size⟩

/-- **`%u` reads a number** up to the first byte that is not a digit. -/
theorem IsNumber.scanU {ds s : List UInt8} {x : UInt32} (h : IsNumber ds x)
    (hs : ∀ c ∈ s.head?, isDigit c = false) : Lib.scanU (ds ++ s) = some (x, s) := by
  obtain ⟨htake, hdrop⟩ := takeWhile_digits h.digits hs
  have hvalue := h.value
  have hlt : x.toNat < 2 ^ 32 := x.toNat_lt
  obtain ⟨c, cs, rfl⟩ := List.exists_cons_of_ne_nil h.nonempty
  unfold Lib.scanU
  rw [List.cons_append, scanSign_of_digit (h.digits c (by simp)), ← List.cons_append]
  simp only [htake, hdrop, if_neg h.nonempty, strtoul, hvalue, Bool.false_eq_true, if_false]
  rw [if_neg (by omega)]
  simp

theorem sscanf_lit (text : List UInt8) (fmt : List Directive) (s : List UInt8) :
    sscanf (text.map .lit ++ fmt) (text ++ s) = sscanf fmt s := by
  induction text with
  | nil => rfl
  | cons c text ih => simp [sscanf, ih]

/-- Input that does not start with the format's plain characters assigns
nothing. -/
theorem sscanf_lit_of_mismatch {text : List UInt8} (fmt : List Directive)
    {s : List UInt8} (h : ¬ text <+: s) : sscanf (text.map .lit ++ fmt) s = [] := by
  induction text generalizing s with
  | nil => exact absurd List.nil_prefix h
  | cons c text ih =>
      cases s with
      | nil => rfl
      | cons d s =>
          simp only [List.map_cons, List.cons_append, sscanf]
          split
          · rename_i hd
            subst hd
            exact ih fun hp => h (List.cons_prefix_cons.mpr ⟨rfl, hp⟩)
          · rfl

end Aesd.Lib
