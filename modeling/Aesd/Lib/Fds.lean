import Mathlib.Data.List.Basic
import Mathlib.Logic.Function.Basic

/-!
# The descriptors of a process

What each number of a process refers to. A new descriptor gets the lowest number
that is free. A file that is opened, duplicated onto some numbers and closed
again is on those numbers afterwards, but for the one it was opened on, which is
free again and the lowest free one (`FdTable.redirect_ref`,
`FdTable.lowest_redirect`).
-/

namespace Aesd.Lib

/-- The open descriptors, which are finitely many. -/
structure FdTable (α : Type*) where
  ref : Nat → Option α
  bound : Nat
  free : ∀ n, bound ≤ n → ref n = none

namespace FdTable

variable {α : Type*}

/-- The lowest free number. -/
def lowest (t : FdTable α) : Nat :=
  ((List.range t.bound).find? fun n => (t.ref n).isNone).getD t.bound

/-- What `n` refers to. -/
def set (t : FdTable α) (n : Nat) (x : Option α) : FdTable α where
  ref := Function.update t.ref n x
  bound := max t.bound (n + 1)
  free := by
    intro m hm
    rw [Function.update_of_ne (by omega)]
    exact t.free m (by omega)

/-- A new descriptor. -/
def install (t : FdTable α) (x : α) : FdTable α := t.set t.lowest (some x)

/-- `close`. -/
def close (t : FdTable α) (n : Nat) : Option (FdTable α) :=
  if (t.ref n).isSome then some (t.set n none) else none

/-- All of `ns` closed, those that are open. -/
def closeAll (t : FdTable α) (ns : List Nat) : FdTable α :=
  ns.foldl (fun t n => t.set n none) t

/-- `dup2`. -/
def dup2 (t : FdTable α) (old new : Nat) : Option (FdTable α) :=
  if (t.ref old).isSome then
    some (if old = new then t else t.set new (t.ref old))
  else none

/-- `dup2` of `old` onto each number of `ns`, until one fails. `ok` says for which
numbers the kernel would let it. -/
def dup2s (ok : Nat → Bool) (old : Nat) : List Nat → FdTable α → Bool × FdTable α
  | [], t => (true, t)
  | n :: ns, t =>
      match if ok n then t.dup2 old n else none with
      | some t => dup2s ok old ns t
      | none => (false, t)

section
variable {t : FdTable α} {n m : Nat} {x : Option α}

@[simp] theorem ref_set_self : (t.set n x).ref n = x := Function.update_self ..

theorem ref_set_of_ne (h : m ≠ n) : (t.set n x).ref m = t.ref m := Function.update_of_ne h ..

theorem ref_set : (t.set n x).ref m = if m = n then x else t.ref m := by
  split
  · rename_i h
    rw [h, ref_set_self]
  · rename_i h
    exact ref_set_of_ne h

theorem ref_closeAll {ns : List Nat} :
    (t.closeAll ns).ref m = if m ∈ ns then none else t.ref m := by
  induction ns generalizing t with
  | nil => simp [closeAll]
  | cons n ns ih =>
      show ((t.set n none).closeAll ns).ref m = _
      rw [ih, ref_set]
      by_cases hm : m ∈ ns
      · simp [hm]
      · simp [hm]

/-! ## The lowest free number -/

@[simp] theorem ref_lowest (t : FdTable α) : t.ref t.lowest = none := by
  unfold lowest
  cases h : (List.range t.bound).find? fun n => (t.ref n).isNone with
  | none => exact t.free _ (Nat.le_refl _)
  | some n => exact Option.isNone_iff_eq_none.mp (List.find?_range_eq_some.mp h).1

theorem lowest_le (h : t.ref n = none) : t.lowest ≤ n := by
  unfold lowest
  cases hf : (List.range t.bound).find? fun n => (t.ref n).isNone with
  | none =>
      have hall := List.find?_range_eq_none.mp hf
      show t.bound ≤ n
      by_contra hlt
      have := hall n (by omega)
      simp [h] at this
  | some m =>
      have hleast := (List.find?_range_eq_some.mp hf).2.2
      show m ≤ n
      by_contra hlt
      have := hleast n (by omega)
      simp [h] at this

theorem lowest_eq (h : t.ref n = none) (hbelow : ∀ m, m < n → t.ref m ≠ none) :
    t.lowest = n := by
  apply Nat.le_antisymm (lowest_le h)
  by_contra hlt
  exact hbelow t.lowest (by omega) t.ref_lowest

theorem ne_lowest (h : t.ref n ≠ none) : n ≠ t.lowest := by
  rintro rfl
  exact h t.ref_lowest

/-! ## New descriptors -/

@[simp] theorem ref_install_lowest (t : FdTable α) (x : α) :
    (t.install x).ref t.lowest = some x := ref_set_self

theorem ref_install_of_some {x y : α} (h : t.ref n = some y) : (t.install x).ref n = some y := by
  have hne : n ≠ t.lowest := ne_lowest (by simp [h])
  rw [install, ref_set_of_ne hne, h]

/-! ## Duplicates -/

theorem dup2_ref {old new : Nat} {t' : FdTable α} (h : t.dup2 old new = some t') :
    t'.ref m = if m = new then t.ref old else t.ref m := by
  unfold dup2 at h
  split at h
  · cases h
    by_cases heq : old = new
    · subst heq
      rw [if_pos rfl]
      split
      · rename_i hm
        rw [hm]
      · rfl
    · rw [if_neg heq, ref_set]
  · cases h

/-- **After the duplicates**, if none failed. -/
theorem dup2s_ref {ok : Nat → Bool} {old : Nat} {ns : List Nat} {t' : FdTable α}
    (h : dup2s ok old ns t = (true, t')) :
    t'.ref m = if m ∈ ns then t.ref old else t.ref m := by
  induction ns generalizing t with
  | nil =>
      cases h
      simp
  | cons n ns ih =>
      unfold dup2s at h
      split at h
      · rename_i t₁ ht
        split at ht
        · rw [ih h, dup2_ref ht, dup2_ref ht, ite_self]
          by_cases hm : m ∈ ns
          · simp [hm]
          · simp [hm]
        · cases ht
      · cases h

theorem dup2s_eq_true {ok : Nat → Bool} {old : Nat} {ns : List Nat}
    (h : (t.ref old).isSome = true) :
    (dup2s ok old ns t).1 = true ↔ ∀ n ∈ ns, ok n = true := by
  induction ns generalizing t with
  | nil => simp [dup2s]
  | cons n ns ih =>
      cases hok : ok n with
      | false => simp [dup2s, hok]
      | true =>
          have hdup : t.dup2 old n = some (if old = n then t else t.set n (t.ref old)) := if_pos h
          have hopen : ((if old = n then t else t.set n (t.ref old)).ref old).isSome = true := by
            rw [dup2_ref hdup, ite_self]
            exact h
          simp only [dup2s, hok, if_true, hdup, ih hopen, List.forall_mem_cons, true_and]

theorem close_ref {t' : FdTable α} (h : t.close n = some t') :
    t'.ref m = if m = n then none else t.ref m := by
  unfold close at h
  split at h
  · cases h
    exact ref_set
  · cases h

end

/-! ## Redirection -/

/-- A file opened, duplicated onto `ns`, and closed where it was opened. -/
def redirect (ok : Nat → Bool) (x : α) (ns : List Nat) (t : FdTable α) :
    Bool × FdTable α :=
  let (dup, t') := dup2s ok t.lowest ns (t.install x)
  match t'.close t.lowest with
  | some t' => (dup, t')
  | none => (false, t')

section
variable {t t' : FdTable α} {ok : Nat → Bool} {x : α} {ns : List Nat}

/-- The number it was opened on is open still after the duplicates. -/
theorem dup2s_install (h : dup2s ok t.lowest ns (t.install x) = (true, t')) :
    (t'.ref t.lowest).isSome = true := by
  rw [dup2s_ref h, ite_self, ref_install_lowest, Option.isSome_some]

theorem redirect_of_dup2s (h : dup2s ok t.lowest ns (t.install x) = (true, t')) :
    redirect ok x ns t = (true, t'.set t.lowest none) := by
  simp [redirect, h, close, dup2s_install h]

/-- A redirection fails only where the kernel fails a duplicate. -/
theorem redirect_eq_true : (redirect ok x ns t).1 = true ↔ ∀ n ∈ ns, ok n = true := by
  have hopen : ((t.install x).ref t.lowest).isSome = true := by simp
  rw [← dup2s_eq_true hopen]
  cases hd : dup2s ok t.lowest ns (t.install x) with
  | mk dup t₁ =>
      cases dup with
      | false => cases hc : t₁.close t.lowest <;> simp [redirect, hd, hc]
      | true => simp [redirect_of_dup2s hd]

/-- **What a redirection leaves.** -/
theorem redirect_ref (h : redirect ok x ns t = (true, t')) (n : Nat) :
    t'.ref n = if n = t.lowest then none else if n ∈ ns then some x else t.ref n := by
  unfold redirect at h
  cases hd : dup2s ok t.lowest ns (t.install x) with
  | mk dup t₁ =>
      rw [hd] at h
      dsimp only at h
      split at h
      · rename_i t₂ hc
        cases h
        rw [close_ref hc, dup2s_ref hd]
        split
        · rfl
        · rename_i hne
          rw [ref_install_lowest, install, ref_set_of_ne hne]
      · cases h

/-- **The number it was opened on** is the lowest free one again. -/
theorem lowest_redirect (h : redirect ok x ns t = (true, t')) : t'.lowest = t.lowest := by
  apply lowest_eq
  · rw [redirect_ref h, if_pos rfl]
  · intro m hm
    rw [redirect_ref h, if_neg (Nat.ne_of_lt hm)]
    split
    · exact Option.some_ne_none x
    · intro hnone
      exact absurd (lowest_le hnone) (Nat.not_le.mpr hm)

end

end FdTable

end Aesd.Lib
