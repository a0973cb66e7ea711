import Mathlib.Algebra.Order.BigOperators.Group.List
import Mathlib.Algebra.Order.Ring.Nat

/-!
# Positions in a concatenation

`locate sizes p` finds the piece that position `p` of a concatenation falls
into and the index inside that piece, from the sizes of the pieces alone.
It is the meaning of a search that walks a store of pieces with a running
sum.
-/

namespace Aesd.Lib

variable {α : Type*}

/-- The piece that position `p` falls into and the index there, or `none`
past the end. -/
def locate : List Nat → Nat → Option (Nat × Nat)
  | [], _ => none
  | n :: ns, p =>
      if p < n then some (0, p)
      else (locate ns (p - n)).map fun (i, k) => (i + 1, k)

@[simp] theorem locate_nil (p : Nat) : locate [] p = none := rfl

theorem locate_cons_lt {n p : Nat} (h : p < n) (ns : List Nat) :
    locate (n :: ns) p = some (0, p) := by
  simp [locate, h]

theorem locate_cons_ge {n p : Nat} (h : n ≤ p) (ns : List Nat) :
    locate (n :: ns) p = (locate ns (p - n)).map fun (i, k) => (i + 1, k) := by
  simp [locate, Nat.not_lt.mpr h]

/-- **The search misses exactly past the end.** -/
theorem locate_eq_none_iff {ns : List Nat} {p : Nat} :
    locate ns p = none ↔ ns.sum ≤ p := by
  induction ns generalizing p with
  | nil => simp
  | cons n ns ih =>
      rcases Nat.lt_or_ge p n with h | h
      · simp only [locate_cons_lt h, List.sum_cons, reduceCtorEq, false_iff]
        omega
      · simp only [locate_cons_ge h, Option.map_eq_none_iff, ih, List.sum_cons]
        omega

/-- **What the search finds**: an index inside a piece, at distance `p` from
the start. -/
theorem locate_spec {ns : List Nat} {p i k : Nat}
    (h : locate ns p = some (i, k)) :
    ∃ hi : i < ns.length, k < ns[i] ∧ (ns.take i).sum + k = p := by
  induction ns generalizing p i with
  | nil => cases h
  | cons n ns ih =>
      rcases Nat.lt_or_ge p n with hp | hp
      · rw [locate_cons_lt hp] at h
        cases h
        exact ⟨by simp, by simpa using hp, by simp⟩
      · rw [locate_cons_ge hp, Option.map_eq_some_iff] at h
        obtain ⟨⟨j, k'⟩, hj, heq⟩ := h
        cases heq
        obtain ⟨hi, hk, hsum⟩ := ih hj
        refine ⟨by simpa using hi, by simpa using hk, ?_⟩
        simp only [List.take_succ_cons, List.sum_cons]
        omega

/-- **The search inverts the sum**: it finds exactly the index inside a piece
that lies `p` from the start. -/
theorem locate_eq_some_iff {ns : List Nat} {p i k : Nat} :
    locate ns p = some (i, k) ↔
      ∃ hi : i < ns.length, k < ns[i] ∧ (ns.take i).sum + k = p := by
  constructor
  · exact locate_spec
  · intro h
    induction ns generalizing p i with
    | nil =>
        obtain ⟨hi, -⟩ := h
        exact absurd hi (Nat.not_lt_zero i)
    | cons n ns ih =>
        obtain ⟨hi, hk, hsum⟩ := h
        cases i with
        | zero =>
            have hk : k < n := hk
            have hp : k = p := by simpa using hsum
            rw [← hp, locate_cons_lt hk]
        | succ i =>
            rw [List.take_succ_cons, List.sum_cons] at hsum
            have hi : i < ns.length := by simpa using hi
            have htail : locate ns (p - n) = some (i, k) :=
              ih ⟨hi, by simpa using hk, by omega⟩
            rw [locate_cons_ge (by omega), htail]
            rfl

/-- **Positions grow with the piece and the index inside it.** -/
theorem sum_take_add_lt {ns : List Nat} {i k i' k' : Nat} (hi : i < ns.length)
    (hk : k < ns[i]) (h : i < i' ∨ i = i' ∧ k < k') :
    (ns.take i).sum + k < (ns.take i').sum + k' := by
  rcases h with hlt | ⟨rfl, hlt⟩
  · -- the whole piece `i` is before `i'`
    have hsplit : (ns.take i').sum
        = (ns.take i).sum + ns[i] + ((ns.take i').drop (i + 1)).sum := by
      have hi' : i < (ns.take i').length := by
        rw [List.length_take]
        omega
      have htake : (ns.take i').take i = ns.take i := by
        rw [List.take_take, Nat.min_eq_left (Nat.le_of_lt hlt)]
      conv_lhs => rw [← List.take_append_drop i (ns.take i'), List.drop_eq_getElem_cons hi',
        htake, List.sum_append, List.sum_cons, List.getElem_take]
      omega
    omega
  · omega

theorem locate_isSome {ns : List Nat} {p : Nat} (h : p < ns.sum) :
    ∃ i k, locate ns p = some (i, k) := by
  cases hl : locate ns p with
  | none => exact absurd (locate_eq_none_iff.mp hl) (by omega)
  | some ik => exact ⟨ik.1, ik.2, rfl⟩

/-- The concatenation from a located position on: the rest of the piece,
then the pieces after it. -/
theorem drop_flatten_of_locate {xss : List (List α)} {p i k : Nat}
    (h : locate (xss.map List.length) p = some (i, k)) :
    ∃ hi : i < xss.length, k < xss[i].length ∧
      xss.flatten.drop p = xss[i].drop k ++ (xss.drop (i + 1)).flatten := by
  induction xss generalizing p i with
  | nil => cases h
  | cons xs xss ih =>
      rw [List.map_cons] at h
      rcases Nat.lt_or_ge p xs.length with hp | hp
      · rw [locate_cons_lt hp] at h
        cases h
        refine ⟨by simp, by simpa using hp, ?_⟩
        simp [List.drop_append_of_le_length (Nat.le_of_lt hp)]
      · rw [locate_cons_ge hp, Option.map_eq_some_iff] at h
        obtain ⟨⟨j, k'⟩, hj, heq⟩ := h
        cases heq
        obtain ⟨hi, hk, hdrop⟩ := ih hj
        refine ⟨by simpa using hi, by simpa using hk, ?_⟩
        simp only [List.flatten_cons, List.getElem_cons_succ, List.drop_succ_cons]
        rw [List.drop_append, List.drop_eq_nil_of_le hp, List.nil_append, hdrop]

/-- A concatenation of pieces of bounded length. -/
theorem flatten_length_le {xss : List (List α)} {n : Nat}
    (h : ∀ xs ∈ xss, xs.length ≤ n) : xss.flatten.length ≤ xss.length * n := by
  have hsum := List.sum_le_card_nsmul (xss.map List.length) n (by simpa using h)
  simpa [List.length_flatten] using hsum

end Aesd.Lib
