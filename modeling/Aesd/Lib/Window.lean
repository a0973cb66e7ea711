import Mathlib.Data.List.DropRight
import Mathlib.Logic.Function.Basic
import Mathlib.Data.List.Range

/-!
# Windows of a circular array

A circular array of `N` slots is a function `slot : Nat → α` of which the
arguments `0 .. N-1` matter. Its window of length `len` from `out` is the
list of the slots `out, out+1, …` modulo `N`. The two ways a ring buffer
changes are a write at the slot after the window, which appends to it, and
a write over the first slot of a window of length `N`, which drops the
oldest value and appends the new one.
-/

namespace Aesd.Lib

variable {α : Type*}

/-- The `len` slots from `out` on, in circular order. -/
def window (slot : Nat → α) (N out len : Nat) : List α :=
  (List.range len).map fun i => slot ((out + i) % N)

@[simp] theorem window_length (slot : Nat → α) (N out len : Nat) :
    (window slot N out len).length = len := by
  simp [window]

@[simp] theorem window_zero (slot : Nat → α) (N out : Nat) :
    window slot N out 0 = [] := rfl

theorem window_getElem? (slot : Nat → α) (N out : Nat) {len i : Nat} (h : i < len) :
    (window slot N out len)[i]? = some (slot ((out + i) % N)) := by
  simp [window, h]

theorem window_getElem (slot : Nat → α) {N out len i : Nat}
    (h : i < (window slot N out len).length) :
    (window slot N out len)[i] = slot ((out + i) % N) := by
  simp [window]

theorem mem_window {slot : Nat → α} {N out len : Nat} {x : α} :
    x ∈ window slot N out len ↔ ∃ i < len, slot ((out + i) % N) = x := by
  simp [window]

theorem window_succ (slot : Nat → α) (N out len : Nat) :
    window slot N out (len + 1)
      = window slot N out len ++ [slot ((out + len) % N)] := by
  simp [window, List.range_succ]

theorem window_cons (slot : Nat → α) (N out len : Nat) :
    window slot N out (len + 1)
      = slot (out % N) :: window slot N (out + 1) len := by
  simp only [window, List.range_succ_eq_map, List.map_cons, Nat.add_zero,
    List.map_map]
  congr 1
  apply List.map_congr_left
  intro i _
  simp only [Function.comp]
  rw [show out + (i + 1) = out + 1 + i by omega]

/-- Only the start modulo `N` matters. -/
theorem window_mod (slot : Nat → α) (N out len : Nat) :
    window slot N (out % N) len = window slot N out len := by
  simp [window, Nat.mod_add_mod]

theorem window_congr {slot slot' : Nat → α} {N out len : Nat}
    (h : ∀ i < len, slot ((out + i) % N) = slot' ((out + i) % N)) :
    window slot N out len = window slot' N out len := by
  apply List.map_congr_left
  intro i hi
  exact h i (List.mem_range.mp hi)

theorem mod_add_ne (out : Nat) {N i j : Nat} (hij : i < j) (hj : j < i + N) :
    (out + i) % N ≠ (out + j) % N := by
  intro h
  have hd : N ∣ (out + j) - (out + i) :=
    Nat.dvd_of_mod_eq_zero (Nat.sub_mod_eq_zero_of_mod_eq h.symm)
  have h0 : (out + j) - (out + i) = 0 := Nat.eq_zero_of_dvd_of_lt hd (by omega)
  omega

theorem window_update_ne {slot : Nat → α} {N out len k : Nat} (x : α)
    (h : ∀ i < len, (out + i) % N ≠ k) :
    window (Function.update slot k x) N out len = window slot N out len :=
  window_congr fun i hi => Function.update_of_ne (h i hi) x slot

/-- **A write after the window appends.** -/
theorem window_append (slot : Nat → α) (out : Nat) {N len : Nat} (x : α)
    (h : len < N) :
    window (Function.update slot ((out + len) % N) x) N out (len + 1)
      = window slot N out len ++ [x] := by
  rw [window_succ, Function.update_self,
    window_update_ne x fun i hi => mod_add_ne out hi (by omega)]

/-- **A write over the first slot of a full window** drops the oldest value
and appends the new one, and the window starts one slot later. -/
theorem window_overwrite (slot : Nat → α) (out : Nat) {N : Nat} (x : α) (h : 0 < N) :
    window (Function.update slot (out % N) x) N (out + 1) N
      = (window slot N out N).tail ++ [x] := by
  obtain ⟨n, rfl⟩ : ∃ n, N = n + 1 := ⟨N - 1, by omega⟩
  have hlast : (out + 1 + n) % (n + 1) = out % (n + 1) := by
    rw [show out + 1 + n = out + (n + 1) by omega, Nat.add_mod_right]
  have hrest : ∀ i < n, (out + 1 + i) % (n + 1) ≠ out % (n + 1) := by
    intro i hi
    have := mod_add_ne out (N := n + 1) (i := 0) (j := i + 1) (by omega) (by omega)
    rw [show out + 1 + i = out + (i + 1) by omega]
    simpa using this.symm
  rw [window_succ, hlast, Function.update_self, window_update_ne x hrest,
    window_cons, List.tail_cons]

/-! ## The last `n` of a list -/

theorem rtake_of_length_le {n : Nat} {l : List α} (h : l.length ≤ n) :
    l.rtake n = l := by
  simp [List.rtake, Nat.sub_eq_zero_of_le h]

theorem rtake_length (n : Nat) (l : List α) :
    (l.rtake n).length = min n l.length := by
  simp only [List.rtake, List.length_drop]
  omega

/-- What comes before the last `n`, and the last `n`. -/
theorem rdrop_append_rtake (n : Nat) (l : List α) :
    l.rdrop n ++ l.rtake n = l := by
  simp [List.rdrop, List.rtake]

/-- Appending to a list of at least `n` elements drops the oldest of its
last `n`. -/
theorem rtake_concat_of_le {n : Nat} {l : List α} (h : n ≤ l.length)
    (hn : 0 < n) (x : α) : (l ++ [x]).rtake n = (l.rtake n).tail ++ [x] := by
  obtain ⟨m, rfl⟩ : ∃ m, n = m + 1 := ⟨n - 1, by omega⟩
  rw [List.rtake_concat_succ]
  simp only [List.rtake, List.tail_drop]
  rw [show l.length - (m + 1) + 1 = l.length - m by omega]

end Aesd.Lib
