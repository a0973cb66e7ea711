import Mathlib.Data.List.Induction

/-!
# Framing

Cutting a list into frames: a frame closes at the first element that
satisfies `p`. The elements are the bytes of a stream (`p` is "is the
delimiter", a frame is a line) or its chunks (`p` is "contains the
delimiter", a frame is what a receiver hands on at once). Nothing is lost
(`frames_flatten`), and a closed frame ends in its only closing element
(`frames_closed`).
-/

namespace Aesd.Lib

variable {α : Type*}

/-- The frames closed so far, oldest first, and the open one. -/
structure Frames (α : Type*) where
  closed : List (List α)
  rest : List α
  deriving DecidableEq, Repr

/-- One more element: it joins the open frame and closes it if `p`. -/
def Frames.push (p : α → Bool) (f : Frames α) (x : α) : Frames α :=
  if p x then ⟨f.closed ++ [f.rest ++ [x]], []⟩ else ⟨f.closed, f.rest ++ [x]⟩

/-- The framing of a list. -/
def frames (p : α → Bool) (xs : List α) : Frames α :=
  xs.foldl (Frames.push p) ⟨[], []⟩

/-- A closed frame: its last element, and only that one, satisfies `p`. -/
def Closes (p : α → Bool) (g : List α) : Prop :=
  ∃ ys x, g = ys ++ [x] ∧ (∀ y ∈ ys, p y = false) ∧ p x = true

section
variable {p : α → Bool}

@[simp] theorem frames_nil : frames p [] = ⟨[], []⟩ := rfl

theorem frames_concat (xs : List α) (x : α) :
    frames p (xs ++ [x]) = (frames p xs).push p x := by
  simp [frames]

theorem push_of_closes {f : Frames α} {x : α} (h : p x = true) :
    f.push p x = ⟨f.closed ++ [f.rest ++ [x]], []⟩ := by
  simp [Frames.push, h]

theorem push_of_not_closes {f : Frames α} {x : α} (h : p x = false) :
    f.push p x = ⟨f.closed, f.rest ++ [x]⟩ := by
  simp [Frames.push, h]

/-- Framing loses, repeats and reorders nothing. -/
theorem frames_flatten (xs : List α) :
    (frames p xs).closed.flatten ++ (frames p xs).rest = xs := by
  induction xs using List.reverseRecOn with
  | nil => rfl
  | append_singleton xs x ih =>
      rw [frames_concat, Frames.push]
      split
      · simp only [List.flatten_append, List.flatten_cons, List.flatten_nil,
          List.append_nil]
        rw [← List.append_assoc, ih]
      · rw [← List.append_assoc, ih]

/-- The open frame holds no element that closes. -/
theorem frames_rest (xs : List α) : ∀ x ∈ (frames p xs).rest, p x = false := by
  induction xs using List.reverseRecOn with
  | nil => simp
  | append_singleton xs x ih =>
      rw [frames_concat, Frames.push]
      split
      · simp
      · rename_i hx
        intro y hy
        rcases List.mem_append.mp hy with hy | hy
        · exact ih y hy
        · rw [List.mem_singleton.mp hy]
          simpa using hx

/-- Every closed frame ends in its only closing element. -/
theorem frames_closed (xs : List α) : ∀ g ∈ (frames p xs).closed, Closes p g := by
  induction xs using List.reverseRecOn with
  | nil => simp
  | append_singleton xs x ih =>
      rw [frames_concat, Frames.push]
      split
      · rename_i hx
        intro g hg
        rcases List.mem_append.mp hg with hg | hg
        · exact ih g hg
        · exact ⟨_, x, List.mem_singleton.mp hg, frames_rest xs, hx⟩
      · exact ih

theorem foldl_push_open {ys : List α} (h : ∀ y ∈ ys, p y = false)
    (f : Frames α) : ys.foldl (Frames.push p) f = ⟨f.closed, f.rest ++ ys⟩ := by
  induction ys generalizing f with
  | nil => simp
  | cons y ys ih =>
      rw [List.foldl_cons, push_of_not_closes (h y (by simp)),
        ih (fun z hz => h z (by simp [hz]))]
      simp

end

end Aesd.Lib
