import Mathlib.Data.List.Nodup
import Mathlib.Logic.Function.Basic

/-!
# Singly linked lists

The `SLIST` macros of `sys/queue.h` over a heap of nodes: a list is the
pointer to its first node, and each node has the link to the next. `none` is
undefined behaviour: a null pointer is followed, or one to a node that is not
there.

`Links nodes first ids` says that the list from `first` on is `ids`, so that
it ends; removing a node is then removing its name (`slistRemove_links`).
-/

namespace Aesd.Lib

/-- A node: what it holds, and its link. -/
structure Node (α : Type) where
  val : α
  next : Option Nat

/-- The nodes there are. -/
abbrev Nodes (α : Type) := Nat → Option (Node α)

section
variable {α : Type}

/-- `SLIST_NEXT`. -/
def slistNext (nodes : Nodes α) (p : Nat) : Option (Option Nat) :=
  (nodes p).map Node.next

/-- `SLIST_INSERT_HEAD`: the nodes and the first one. -/
def slistInsertHead (nodes : Nodes α) (first : Option Nat) (p : Nat) :
    Option (Nodes α × Option Nat) := do
  let node ← nodes p
  return (Function.update nodes p (some { node with next := first }), some p)

/-- `SLIST_REMOVE_HEAD`: the new first node. -/
def slistRemoveHead (nodes : Nodes α) (first : Option Nat) : Option (Option Nat) := do
  let p ← first
  slistNext nodes p

/-- The loop of `SLIST_REMOVE`, from `curelm` on to the node before `p`. -/
def slistUnlink (nodes : Nodes α) (p : Nat) : Nat → Nat → Option (Nodes α)
  | 0, _ => none
  | fuel + 1, curelm => do
      let node ← nodes curelm
      if node.next = some p then
        let next ← slistNext nodes p
        return Function.update nodes curelm (some { node with next })
      else
        let curelm ← node.next
        slistUnlink nodes p fuel curelm

/-- `SLIST_REMOVE`: the nodes and the first one. `fuel` bounds the length of
the list. -/
def slistRemove (nodes : Nodes α) (first : Option Nat) (p fuel : Nat) :
    Option (Nodes α × Option Nat) :=
  if first = some p then do
    let first ← slistRemoveHead nodes first
    return (nodes, first)
  else do
    let curelm ← first
    let nodes ← slistUnlink nodes p fuel curelm
    return (nodes, first)

/-- Lists change, but no node comes, goes or changes what it holds. -/
def SameVals (nodes nodes' : Nodes α) : Prop :=
  ∀ q, (nodes' q).map Node.val = (nodes q).map Node.val

/-- The list from `first` on is `ids`. -/
def Links (nodes : Nodes α) : Option Nat → List Nat → Prop
  | first, [] => first = none
  | first, p :: ids => first = some p ∧ ∃ node, nodes p = some node ∧ Links nodes node.next ids

variable {nodes nodes' : Nodes α} {first first' : Option Nat} {p : Nat}

theorem SameVals.refl (nodes : Nodes α) : SameVals nodes nodes := fun _ => rfl

theorem SameVals.node {node : Node α} {q : Nat} (h : SameVals nodes nodes')
    (hq : nodes q = some node) : ∃ node', nodes' q = some node' ∧ node'.val = node.val := by
  have hval := h q
  rw [hq, Option.map_some] at hval
  exact Option.map_eq_some_iff.mp hval

theorem sameVals_update {node : Node α} (hp : nodes p = some node) (next : Option Nat) :
    SameVals nodes (Function.update nodes p (some { node with next })) := by
  intro q
  by_cases hq : q = p
  · subst hq
    rw [Function.update_self, hp]
    rfl
  · rw [Function.update_of_ne hq]

theorem slistInsertHead_sameVals
    (h : slistInsertHead nodes first p = some (nodes', first')) : SameVals nodes nodes' := by
  simp only [slistInsertHead, Option.bind_eq_bind, Option.bind_eq_some_iff] at h
  obtain ⟨node, hp, h⟩ := h
  cases h
  exact sameVals_update hp first

theorem slistUnlink_sameVals {fuel curelm : Nat}
    (h : slistUnlink nodes p fuel curelm = some nodes') : SameVals nodes nodes' := by
  induction fuel generalizing curelm with
  | zero => cases h
  | succ fuel ih =>
      simp only [slistUnlink, Option.bind_eq_bind, Option.bind_eq_some_iff] at h
      obtain ⟨node, hcur, h⟩ := h
      split at h
      · simp only [Option.bind_eq_some_iff] at h
        obtain ⟨next, -, h⟩ := h
        cases h
        exact sameVals_update hcur next
      · simp only [Option.bind_eq_some_iff] at h
        obtain ⟨next, -, h⟩ := h
        exact ih h

/-- **Removing a node** takes it off the list and leaves what the nodes hold. -/
theorem slistRemove_sameVals {fuel : Nat}
    (h : slistRemove nodes first p fuel = some (nodes', first')) :
    SameVals nodes nodes' := by
  unfold slistRemove at h
  split at h
  · simp only [Option.bind_eq_bind, Option.bind_eq_some_iff] at h
    obtain ⟨_, -, h⟩ := h
    cases h
    exact SameVals.refl nodes
  · simp only [Option.bind_eq_bind, Option.bind_eq_some_iff] at h
    obtain ⟨curelm, -, _, hunlink, h⟩ := h
    cases h
    exact slistUnlink_sameVals hunlink

/-! ## Lists that end -/

variable {ids ids' : List Nat}

@[simp] theorem links_nil : Links nodes first [] ↔ first = none := Iff.rfl

@[simp] theorem links_cons : Links nodes first (p :: ids) ↔
    first = some p ∧ ∃ node, nodes p = some node ∧ Links nodes node.next ids := Iff.rfl

theorem Links.head (h : Links nodes first ids) : first = ids.head? := by
  cases ids with
  | nil => exact h
  | cons p ids => exact h.1

theorem Links.node (h : Links nodes first ids) (hp : p ∈ ids) :
    ∃ node, nodes p = some node := by
  induction ids generalizing first with
  | nil => cases hp
  | cons q ids ih =>
      obtain ⟨-, node, hq, hrest⟩ := h
      rcases List.mem_cons.mp hp with rfl | hp
      · exact ⟨node, hq⟩
      · exact ih hrest hp

theorem Links.congr (h : Links nodes first ids) (hsame : ∀ q ∈ ids, nodes' q = nodes q) :
    Links nodes' first ids := by
  induction ids generalizing first with
  | nil => exact h
  | cons q ids ih =>
      obtain ⟨hfirst, node, hq, hrest⟩ := h
      refine ⟨hfirst, node, ?_, ih hrest fun r hr => hsame r (List.mem_cons_of_mem _ hr)⟩
      rw [hsame q List.mem_cons_self, hq]

theorem Links.update (h : Links nodes first ids) (hp : p ∉ ids) (node : Option (Node α)) :
    Links (Function.update nodes p node) first ids :=
  h.congr fun _ hq => Function.update_of_ne (ne_of_mem_of_not_mem hq hp) _ _

theorem Links.sameNext (h : Links nodes first ids)
    (hsame : ∀ q ∈ ids, (nodes' q).map Node.next = (nodes q).map Node.next) :
    Links nodes' first ids := by
  induction ids generalizing first with
  | nil => exact h
  | cons q ids ih =>
      obtain ⟨hfirst, node, hq, hrest⟩ := h
      have hnext := hsame q List.mem_cons_self
      rw [hq, Option.map_some] at hnext
      obtain ⟨node', hq', hnext⟩ := Option.map_eq_some_iff.mp hnext
      refine ⟨hfirst, node', hq', ?_⟩
      rw [hnext]
      exact ih hrest fun r hr => hsame r (List.mem_cons_of_mem _ hr)

/-- **A new first node** is before the others. -/
theorem slistInsertHead_links (h : Links nodes first ids) (hp : p ∉ ids)
    (hinsert : slistInsertHead nodes first p = some (nodes', first')) :
    Links nodes' first' (p :: ids) := by
  simp only [slistInsertHead, Option.bind_eq_bind, Option.bind_eq_some_iff] at hinsert
  obtain ⟨node, -, hinsert⟩ := hinsert
  cases hinsert
  exact ⟨rfl, _, Function.update_self .., h.update hp _⟩

/-- **Without its first node** a list is the rest. -/
theorem slistRemoveHead_links (h : Links nodes first (p :: ids))
    (hremove : slistRemoveHead nodes first = some first') : Links nodes first' ids := by
  obtain ⟨rfl, node, hp, hrest⟩ := h
  simp only [slistRemoveHead, slistNext, hp, Option.bind_eq_bind, Option.bind_some,
    Option.map_some, Option.some.injEq] at hremove
  exact hremove ▸ hrest

/-- There is one list from a node on. -/
theorem Links.unique (h : Links nodes first ids) (h' : Links nodes first ids') :
    ids = ids' := by
  induction ids generalizing first ids' with
  | nil =>
      obtain rfl := links_nil.mp h
      cases ids' with
      | nil => rfl
      | cons q ids' => cases h'.1
  | cons p ids ih =>
      obtain ⟨rfl, node, hp, hrest⟩ := h
      cases ids' with
      | nil => cases h'
      | cons q ids' =>
          obtain ⟨hq, node', hp', hrest'⟩ := h'
          cases hq
          rw [hp] at hp'
          cases hp'
          rw [ih hrest hrest']

theorem Links.suffix {xs ys : List Nat} (h : Links nodes first (xs ++ p :: ys)) :
    Links nodes (some p) (p :: ys) := by
  induction xs generalizing first with
  | nil => exact ⟨rfl, h.2⟩
  | cons x xs ih =>
      obtain ⟨-, node, -, hrest⟩ := h
      exact ih hrest

/-- A list that ends has no node twice. -/
theorem Links.nodup (h : Links nodes first ids) : ids.Nodup := by
  induction ids generalizing first with
  | nil => exact List.nodup_nil
  | cons p ids ih =>
      have hrest := h
      obtain ⟨rfl, node, -, hlinks⟩ := hrest
      refine List.nodup_cons.mpr ⟨fun hp => ?_, ih hlinks⟩
      -- a second `p` would start a shorter list than the first
      obtain ⟨xs, ys, rfl⟩ := List.append_of_mem hp
      have heq := hlinks.suffix.unique h
      have hlen := congrArg List.length heq
      simp at hlen
      omega

/-- `SLIST_REMOVE` finds the node before `p` and links it to the one after. -/
theorem slistUnlink_links {xs ys : List Nat} {c fuel : Nat}
    (h : Links nodes (some c) (c :: xs ++ p :: ys)) (hfuel : xs.length < fuel) :
    ∃ nodes', slistUnlink nodes p fuel c = some nodes' ∧
      Links nodes' (some c) (c :: xs ++ ys) ∧ ∀ q ∉ c :: xs, nodes' q = nodes q := by
  induction xs generalizing c fuel with
  | nil =>
      have hnodup := h.nodup
      obtain ⟨-, node, hc, hnext, node', hp, hrest⟩ := h
      obtain ⟨fuel, rfl⟩ := Nat.exists_eq_add_of_lt hfuel
      simp only [List.cons_append, List.nil_append, List.nodup_cons, List.mem_cons, not_or]
        at hnodup
      refine ⟨Function.update nodes c (some { node with next := node'.next }), ?_, ?_, ?_⟩
      · simp [slistUnlink, slistNext, hc, hnext, hp]
      · exact ⟨rfl, _, Function.update_self .., hrest.update hnodup.1.2 _⟩
      · intro q hq
        exact Function.update_of_ne (by simpa using hq) _ _
  | cons d xs ih =>
      have hnodup := h.nodup
      obtain ⟨-, node, hc, hrest⟩ := h
      obtain ⟨fuel, rfl⟩ := Nat.exists_eq_add_of_lt hfuel
      have hnext : node.next = some d := hrest.1
      rw [hnext] at hrest
      have hlt : xs.length < (d :: xs).length + fuel := by
        rw [List.length_cons]
        omega
      obtain ⟨nodes', hun, hlinks, hsame⟩ := ih hrest hlt
      have hcnot : c ∉ d :: xs := by
        intro hm
        exact (List.nodup_cons.mp hnodup).1 (List.mem_append_left _ hm)
      have hdp : d ≠ p := by
        rintro rfl
        simp at hnodup
      refine ⟨nodes', ?_, ⟨rfl, node, (hsame c hcnot).trans hc, hnext ▸ hlinks⟩, ?_⟩
      · simpa [slistUnlink, hc, hnext, hdp] using hun
      · intro q hq
        exact hsame q fun hm => hq (List.mem_cons_of_mem _ hm)

/-- **Removing a node of a list** removes it, and changes no node but those
before it. -/
theorem slistRemove_links {xs ys : List Nat} {fuel : Nat}
    (h : Links nodes first (xs ++ p :: ys)) (hfuel : xs.length ≤ fuel) :
    ∃ nodes' first', slistRemove nodes first p fuel = some (nodes', first') ∧
      Links nodes' first' (xs ++ ys) ∧ ∀ q ∉ xs, nodes' q = nodes q := by
  cases xs with
  | nil =>
      obtain ⟨rfl, node, hp, hrest⟩ := h
      exact ⟨nodes, node.next, by simp [slistRemove, slistRemoveHead, slistNext, hp],
        hrest, fun _ _ => rfl⟩
  | cons c xs =>
      have hnodup := h.nodup
      obtain rfl : first = some c := h.1
      have hcp : c ≠ p := by
        rintro rfl
        simp at hnodup
      obtain ⟨nodes', hun, hlinks, hsame⟩ := slistUnlink_links h hfuel
      exact ⟨nodes', some c, by simp [slistRemove, hcp, hun], hlinks, hsame⟩

/-- **Removing a node of a list and giving it back**: the list goes on without
it, and only links before it change. -/
theorem slistRemove_free {xs ys : List Nat} {fuel : Nat}
    (h : Links nodes first (xs ++ p :: ys)) (hfuel : xs.length ≤ fuel) :
    ∃ nodes' first', slistRemove nodes first p fuel = some (nodes', first') ∧
      Links (Function.update nodes' p none) first' (xs ++ ys) ∧
      (∀ q ∉ xs, q ≠ p → Function.update nodes' p none q = nodes q) ∧
      ∀ q, q ≠ p →
        (Function.update nodes' p none q).map Node.val = (nodes q).map Node.val := by
  obtain ⟨nodes', first', hremove, hlinks, hsame⟩ := slistRemove_links h hfuel
  have hnodup := h.nodup
  rw [List.nodup_middle, List.nodup_cons] at hnodup
  refine ⟨nodes', first', hremove, hlinks.update hnodup.1 none, fun q hq hqp => ?_,
    fun q hqp => ?_⟩
  · rw [Function.update_of_ne hqp, hsame q hq]
  · rw [Function.update_of_ne hqp, slistRemove_sameVals hremove q]

end

end Aesd.Lib
