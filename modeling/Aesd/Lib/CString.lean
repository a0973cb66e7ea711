import Aesd.Lib.Kmalloc
import Mathlib.Data.List.Infix
import Mathlib.Data.List.TakeWhile

/-!
# C strings

A buffer is a list of bytes; the string in it is what stands before its first
zero byte. `none` is undefined behaviour: a string that runs past the end of
its buffer, or a copy that does not fit. `HasString b s` says that `b` holds
the string `s`, and each function has one rule about it.
-/

namespace Aesd.Lib

/-- The string in a buffer. -/
def cstr (b : List UInt8) : Option (List UInt8) :=
  if 0 ∈ b then some (b.takeWhile (· ≠ 0)) else none

/-- `strcpy(dst, src)`: the new contents of `dst`. -/
def strcpy (dst src : List UInt8) : Option (List UInt8) := do
  let s ← cstr src
  if s.length + 1 ≤ dst.length then some (overwrite dst 0 (s ++ [0])) else none

/-- `strcat(dst, src)`: the new contents of `dst`. -/
def strcat (dst src : List UInt8) : Option (List UInt8) := do
  let d ← cstr dst
  let s ← cstr src
  if d.length + s.length + 1 ≤ dst.length then
    some (overwrite dst d.length (s ++ [0]))
  else none

/-- `strchr(b, c) != NULL`. -/
def strchr (b : List UInt8) (c : UInt8) : Option Bool :=
  (cstr b).map fun s => decide (c ∈ s)

/-- `strstr(b, pat) != NULL`. -/
def strstr (b pat : List UInt8) : Option Bool :=
  (cstr b).map fun s => decide (pat <:+: s)

/-- The buffer `b` starts with the string `s` and its terminator. -/
def HasString (b s : List UInt8) : Prop := 0 ∉ s ∧ s ++ [0] <+: b

section
variable {b s dst d : List UInt8}

theorem HasString.cstr (h : HasString b s) : Lib.cstr b = some s := by
  obtain ⟨h0, t, rfl⟩ := h
  have hmem : (0 : UInt8) ∈ s ++ [0] ++ t := by simp
  rw [Lib.cstr, if_pos hmem, List.append_assoc, List.takeWhile_append_of_pos]
  · simp
  · intro c hc
    simp only [ne_eq, decide_eq_true_eq]
    rintro rfl
    exact h0 hc

theorem HasString.length_lt (h : HasString b s) : s.length < b.length := by
  have := h.2.length_le
  simp only [List.length_append, List.length_singleton] at this
  omega

theorem hasString_of_cstr (h : Lib.cstr b = some s) : HasString b s := by
  unfold Lib.cstr at h
  split at h
  case isFalse => cases h
  rename_i hmem
  cases h
  constructor
  · intro h0
    simpa using List.mem_takeWhile_imp h0
  · -- the first byte that is not taken is a zero
    obtain ⟨c, rest, hrest⟩ : ∃ c rest, b.dropWhile (· ≠ 0) = c :: rest := by
      refine List.exists_cons_of_ne_nil fun hnil => ?_
      have hall := List.dropWhile_eq_nil_iff.mp hnil 0 hmem
      simp at hall
    have hc : c = 0 := by
      have := List.head?_dropWhile_not (fun c : UInt8 => decide (c ≠ 0)) b
      rw [hrest] at this
      simpa using this
    refine ⟨rest, ?_⟩
    conv_rhs => rw [← List.takeWhile_append_dropWhile (p := fun c => decide (c ≠ 0)) (l := b)]
    rw [hrest, hc]
    simp

/-- A terminator anywhere in a buffer: the string ends there at the latest. -/
theorem hasString_terminated (xs ys : List UInt8) :
    HasString (xs ++ 0 :: ys) (xs.takeWhile (· ≠ 0)) := by
  apply hasString_of_cstr
  have hmem : (0 : UInt8) ∈ xs ++ 0 :: ys := by simp
  rw [Lib.cstr, if_pos hmem, List.takeWhile_append]
  split
  · rename_i hlen
    rw [(List.takeWhile_prefix _).eq_of_length hlen]
    simp
  · rfl

theorem hasString_overwrite (h0 : 0 ∉ d ++ s) (hd : d <+: dst) :
    HasString (overwrite dst d.length (s ++ [0])) (d ++ s) := by
  refine ⟨h0, dst.drop (d.length + (s ++ [0]).length), ?_⟩
  rw [overwrite, ← List.prefix_iff_eq_take.mp hd]
  simp

/-- **`strcpy`** into a buffer that is long enough. -/
theorem strcpy_spec (hs : HasString b s) (hlen : s.length + 1 ≤ dst.length) :
    ∃ dst', strcpy dst b = some dst' ∧ HasString dst' s ∧ dst'.length = dst.length := by
  refine ⟨overwrite dst 0 (s ++ [0]), ?_, ?_, ?_⟩
  · rw [strcpy, hs.cstr]
    exact if_pos hlen
  · have h0 : (0 : UInt8) ∉ [] ++ s := by simpa using hs.1
    simpa using hasString_overwrite h0 (List.nil_prefix (l := dst))
  · exact overwrite_length (by simpa using hlen)

/-- **`strcat`** onto a buffer that is long enough. -/
theorem strcat_spec (hd : HasString dst d) (hs : HasString b s)
    (hlen : d.length + s.length + 1 ≤ dst.length) :
    ∃ dst', strcat dst b = some dst' ∧ HasString dst' (d ++ s) ∧
      dst'.length = dst.length := by
  refine ⟨overwrite dst d.length (s ++ [0]), ?_, ?_, ?_⟩
  · rw [strcat, hd.cstr, hs.cstr]
    exact if_pos hlen
  · refine hasString_overwrite ?_ ((List.prefix_append d [0]).trans hd.2)
    rw [List.mem_append, not_or]
    exact ⟨hd.1, hs.1⟩
  · refine overwrite_length ?_
    simp only [List.length_append, List.length_singleton]
    omega

theorem HasString.strchr (h : HasString b s) (c : UInt8) :
    Lib.strchr b c = some (decide (c ∈ s)) := by
  simp [Lib.strchr, h.cstr]

theorem HasString.strstr (h : HasString b s) (pat : List UInt8) :
    Lib.strstr b pat = some (decide (pat <:+: s)) := by
  simp [Lib.strstr, h.cstr]

/-- What a string's buffer keeps when it is resized to no less than the
string and its terminator. -/
theorem HasString.resize (h : HasString b s) {n : Nat} (fill : Nat → UInt8)
    (hn : s.length + 1 ≤ n) : HasString (Lib.resize b n fill) s := by
  refine ⟨h.1, ?_⟩
  have hlt := h.length_lt
  have htake : (Lib.resize b n fill).take (s.length + 1) = b.take (s.length + 1) :=
    resize_take fill hlt hn
  have hpre : s ++ [0] = b.take (s.length + 1) := by
    simpa using List.prefix_iff_eq_take.mp h.2
  rw [hpre, ← htake]
  exact List.take_prefix _ _

end

end Aesd.Lib
