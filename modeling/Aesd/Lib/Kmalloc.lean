import Aesd.Lib.CInt
import Mathlib.Data.List.Nodup
import Mathlib.Data.List.Perm.Basic
import Mathlib.Logic.Function.Basic
import Mathlib.Data.Option.Basic

/-!
# Kernel memory

`kmalloc` blocks as distinct identifiers with their bytes, and the calls a
driver makes on them: `kfree`, `krealloc`, `memchr` and the copies from and
to user space. `none` is undefined behaviour: a call on a block that is not
live, or an access outside a block.

What the kernel is free to choose is an argument: whether memory is short,
whether a block moves when it is resized, what new memory holds, whether
user memory faults. No request above `limit` (`KMALLOC_MAX_SIZE`, which
depends on the kernel's configuration) is ever granted.
-/

namespace Aesd.Lib

/-- A kernel pointer: `NULL`, `ZERO_SIZE_PTR` (what `kmalloc(0)` returns),
or the start of a block. -/
inductive Ptr where
  | null
  | zeroSize
  | block (id : Nat)
  deriving DecidableEq, Repr

/-- The heap. Identifiers are handed out in order and never reused; `freed`
lists the blocks given back so far. The last five fields say what no call
can break: live blocks were handed out and fit the limit, and a block was
given back, once, exactly when it was handed out and is no longer live. No
kernel address range exceeds `2 ^ 56` bytes. -/
structure Heap where
  live : Nat → Option (List UInt8)
  next : Nat
  freed : List Nat
  limit : Nat
  limit_le : limit ≤ 2 ^ 56
  live_lt : ∀ {id bs}, live id = some bs → id < next
  live_le : ∀ {id bs}, live id = some bs → bs.length ≤ limit
  mem_freed : ∀ id, id ∈ freed ↔ id < next ∧ live id = none
  freed_nodup : freed.Nodup

/-- No block handed out yet. -/
def Heap.empty (limit : Nat) (h : limit ≤ 2 ^ 56) : Heap where
  live := fun _ => none
  next := 0
  freed := []
  limit := limit
  limit_le := h
  live_lt := by simp
  live_le := by simp
  mem_freed := by simp
  freed_nodup := List.nodup_nil

/-- A fresh block, named by the next identifier. -/
def Heap.alloc (h : Heap) (bs : List UInt8) (hbs : bs.length ≤ h.limit) : Heap where
  live := Function.update h.live h.next (some bs)
  next := h.next + 1
  freed := h.freed
  limit := h.limit
  limit_le := h.limit_le
  live_lt := by
    intro id b hb
    by_cases hid : id = h.next
    · omega
    · rw [Function.update_of_ne hid] at hb
      have := h.live_lt hb
      omega
  live_le := by
    intro id b hb
    by_cases hid : id = h.next
    · rw [hid, Function.update_self] at hb
      cases hb
      exact hbs
    · rw [Function.update_of_ne hid] at hb
      exact h.live_le hb
  mem_freed := by
    intro id
    rw [h.mem_freed]
    by_cases hid : id = h.next
    · simp [hid]
    · rw [Function.update_of_ne hid]
      have : id < h.next ↔ id < h.next + 1 := by omega
      rw [this]
  freed_nodup := h.freed_nodup

/-- New bytes for a live block. -/
def Heap.set (h : Heap) (id : Nat) (bs : List UInt8)
    (hid : (h.live id).isSome) (hbs : bs.length ≤ h.limit) : Heap where
  live := Function.update h.live id (some bs)
  next := h.next
  freed := h.freed
  limit := h.limit
  limit_le := h.limit_le
  live_lt := by
    intro i b hb
    by_cases hi : i = id
    · obtain ⟨c, hc⟩ := Option.isSome_iff_exists.mp hid
      exact h.live_lt (hi ▸ hc)
    · rw [Function.update_of_ne hi] at hb
      exact h.live_lt hb
  live_le := by
    intro i b hb
    by_cases hi : i = id
    · rw [hi, Function.update_self] at hb
      cases hb
      exact hbs
    · rw [Function.update_of_ne hi] at hb
      exact h.live_le hb
  mem_freed := by
    intro i
    rw [h.mem_freed]
    by_cases hi : i = id
    · obtain ⟨c, hc⟩ := Option.isSome_iff_exists.mp hid
      simp [hi, hc]
    · rw [Function.update_of_ne hi]
  freed_nodup := h.freed_nodup

/-- A live block is given back. -/
def Heap.release (h : Heap) (id : Nat) (hid : (h.live id).isSome) : Heap where
  live := Function.update h.live id none
  next := h.next
  freed := h.freed ++ [id]
  limit := h.limit
  limit_le := h.limit_le
  live_lt := by
    intro i b hb
    by_cases hi : i = id
    · rw [hi, Function.update_self] at hb
      cases hb
    · rw [Function.update_of_ne hi] at hb
      exact h.live_lt hb
  live_le := by
    intro i b hb
    by_cases hi : i = id
    · rw [hi, Function.update_self] at hb
      cases hb
    · rw [Function.update_of_ne hi] at hb
      exact h.live_le hb
  mem_freed := by
    intro i
    rw [List.mem_append, h.mem_freed, List.mem_singleton]
    by_cases hi : i = id
    · obtain ⟨c, hc⟩ := Option.isSome_iff_exists.mp hid
      simp [hi, h.live_lt hc]
    · simp [hi]
  freed_nodup := by
    have hn : id ∉ h.freed := by
      intro hm
      rw [((h.mem_freed id).mp hm).2] at hid
      cases hid
    exact List.nodup_append.mpr ⟨h.freed_nodup, List.nodup_singleton _, by
      rintro a ha b hb rfl
      exact hn (List.mem_singleton.mp hb ▸ ha)⟩

/-! ## The calls -/

/-- `kfree`: nothing for the two null-like pointers; a block that is not live
must not be freed. -/
def kfree (h : Heap) : Ptr → Option Heap
  | .null => some h
  | .zeroSize => some h
  | .block id =>
      if hid : (h.live id).isSome then some (h.release id hid) else none

/-- What the allocator decides: `fails`, no memory; `moves`, a resized block
gets a new place; `fill`, what memory past the old bytes holds. -/
structure Kalloc where
  fails : Bool
  moves : Bool
  fill : Nat → UInt8

/-- The bytes of a block resized to `n`: the old ones as far as they fit. -/
def resize (bs : List UInt8) (n : Nat) (fill : Nat → UInt8) : List UInt8 :=
  bs.take n ++ (List.range (n - bs.length)).map fill

@[simp] theorem resize_length (bs : List UInt8) (n : Nat) (fill : Nat → UInt8) :
    (resize bs n fill).length = n := by
  simp only [resize, List.length_append, List.length_take, List.length_map,
    List.length_range]
  omega

theorem resize_take {bs : List UInt8} {n k : Nat} (fill : Nat → UInt8)
    (hk : k ≤ bs.length) (hn : k ≤ n) : (resize bs n fill).take k = bs.take k := by
  rw [resize, List.take_append_of_le_length (by rw [List.length_take]; omega),
    List.take_take, Nat.min_eq_left hn]

/-- `krealloc`: size 0 frees and gives `ZERO_SIZE_PTR`; without memory it
gives `NULL` and leaves the old block allocated; else the block is resized,
in place or moved to a fresh one. From a null-like pointer it allocates. -/
def krealloc (h : Heap) (p : Ptr) (n : Nat) (k : Kalloc) : Option (Heap × Ptr) :=
  match p with
  | .block id =>
      if hid : (h.live id).isSome then
        if n = 0 then
          some (h.release id hid, .zeroSize)
        else if k.fails then
          some (h, .null)
        else if hn : n ≤ h.limit then
          let bs := resize ((h.live id).get hid) n k.fill
          if k.moves then
            some ((h.release id hid).alloc bs (by rw [resize_length]; exact hn),
              .block h.next)
          else
            some (h.set id bs hid (by rw [resize_length]; exact hn), .block id)
        else
          some (h, .null)
      else
        none
  | _ =>
      if n = 0 then
        some (h, .zeroSize)
      else if k.fails then
        some (h, .null)
      else if hn : n ≤ h.limit then
        some (h.alloc (resize [] n k.fill) (by rw [resize_length]; exact hn),
          .block h.next)
      else
        some (h, .null)

/-- The `n` bytes at `p + off`. No bytes may be read from anywhere. -/
def Heap.read (h : Heap) (p : Ptr) (off n : Nat) : Option (List UInt8) :=
  if n = 0 then some []
  else
    match p with
    | .block id => do
        let bs ← h.live id
        if off + n ≤ bs.length then some ((bs.drop off).take n) else none
    | _ => none

/-- The bytes of a block after `ds` are written at `off`. -/
def overwrite (bs : List UInt8) (off : Nat) (ds : List UInt8) : List UInt8 :=
  bs.take off ++ ds ++ bs.drop (off + ds.length)

theorem overwrite_length {bs ds : List UInt8} {off : Nat}
    (h : off + ds.length ≤ bs.length) : (overwrite bs off ds).length = bs.length := by
  simp only [overwrite, List.length_append, List.length_take, List.length_drop]
  omega

/-- `ds` stored at `p + off`. No bytes may be written anywhere. -/
def Heap.write (h : Heap) (p : Ptr) (off : Nat) (ds : List UInt8) : Option Heap :=
  if ds = [] then some h
  else
    match p with
    | .block id =>
        if hid : (h.live id).isSome then
          let bs := (h.live id).get hid
          if hb : off + ds.length ≤ bs.length then
            some (h.set id (overwrite bs off ds) hid (by
              rw [overwrite_length hb]
              exact h.live_le (Option.some_get hid).symm))
          else none
        else none
    | _ => none

/-- `memchr(p, c, n) != NULL`. -/
def memchr (h : Heap) (p : Ptr) (c : UInt8) (n : Nat) : Option Bool :=
  (h.read p 0 n).map fun bs => decide (c ∈ bs)

/-- `copy_from_user(p + off, buf, n)` of all of `buf`, and whether it left
bytes uncopied. With `fault = some residue` the copy of one byte or more
faults, and the destination holds `residue`, whatever that is. -/
def copyFromUser (h : Heap) (p : Ptr) (off : Nat) (buf : List UInt8)
    (fault : Option (Nat → UInt8)) : Option (Heap × Bool) :=
  match fault with
  | some residue => do
      let h' ← h.write p off ((List.range buf.length).map residue)
      return (h', decide (buf ≠ []))
  | none => do
      let h' ← h.write p off buf
      return (h', false)

/-- `copy_to_user(buf, p + off, n)`: the bytes delivered, or `none` inside
when user memory faults on one byte or more. -/
def copyToUser (h : Heap) (p : Ptr) (off n : Nat) (fault : Bool) :
    Option (Option (List UInt8)) := do
  let bs ← h.read p off n
  return if fault && decide (n ≠ 0) then none else some bs

/-! ## Ownership

The rules for a driver that keeps its blocks in known places: a heap is
owned by a list of pointers when its live blocks are the blocks among them,
each named once. -/

/-- The identifiers of the blocks among some pointers. -/
def blocks (ps : List Ptr) : List Nat :=
  ps.filterMap fun
    | .block id => some id
    | _ => none

@[simp] theorem blocks_nil : blocks [] = [] := rfl

@[simp] theorem blocks_cons_null (ps : List Ptr) :
    blocks (.null :: ps) = blocks ps := rfl

@[simp] theorem blocks_cons_zeroSize (ps : List Ptr) :
    blocks (.zeroSize :: ps) = blocks ps := rfl

@[simp] theorem blocks_cons_block (id : Nat) (ps : List Ptr) :
    blocks (.block id :: ps) = id :: blocks ps := rfl

theorem mem_blocks {id : Nat} {ps : List Ptr} :
    id ∈ blocks ps ↔ Ptr.block id ∈ ps := by
  induction ps with
  | nil => simp
  | cons p ps ih => cases p <;> simp [ih]

/-- What `p` points to: the bytes of a live block, else nothing. -/
def Heap.bytes (h : Heap) : Ptr → List UInt8
  | .block id => (h.live id).getD []
  | _ => []

@[simp] theorem Heap.bytes_null (h : Heap) : h.bytes .null = [] := rfl

@[simp] theorem Heap.bytes_zeroSize (h : Heap) : h.bytes .zeroSize = [] := rfl

theorem Heap.bytes_block {h : Heap} {id : Nat} {bs : List UInt8}
    (hb : h.live id = some bs) : h.bytes (.block id) = bs := by
  simp [bytes, hb]

theorem Heap.bytes_le (h : Heap) (p : Ptr) : (h.bytes p).length ≤ h.limit := by
  cases p with
  | null => simp
  | zeroSize => simp
  | block id =>
      cases hb : h.live id with
      | none => simp [bytes, hb]
      | some bs =>
          rw [bytes_block hb]
          exact h.live_le hb

/-- The live blocks are the blocks among `ps`, each once. -/
structure Heap.OwnedBy (h : Heap) (ps : List Ptr) : Prop where
  nodup : (blocks ps).Nodup
  live_iff : ∀ id, (h.live id).isSome ↔ id ∈ blocks ps

/-- Nothing changed for the owners `ps`. -/
structure Heap.Keeps (h h' : Heap) (ps : List Ptr) : Prop where
  bytes : ∀ q ∈ ps, h'.bytes q = h.bytes q
  limit : h'.limit = h.limit

section
variable {h h' : Heap} {p : Ptr} {ps qs : List Ptr}

theorem Heap.Keeps.refl (h : Heap) (ps : List Ptr) : h.Keeps h ps :=
  ⟨fun _ _ => rfl, rfl⟩

theorem Heap.Keeps.trans {h'' : Heap} (h1 : h.Keeps h' ps)
    (h2 : h'.Keeps h'' ps) : h.Keeps h'' ps :=
  ⟨fun q hq => (h2.bytes q hq).trans (h1.bytes q hq), h2.limit.trans h1.limit⟩

theorem Heap.ownedBy_empty (limit : Nat) (hl : limit ≤ 2 ^ 56)
    (hps : blocks ps = []) : (Heap.empty limit hl).OwnedBy ps :=
  ⟨by simp [hps], by simp [hps, Heap.empty]⟩

theorem Heap.OwnedBy.of_blocks_perm (ho : h.OwnedBy ps)
    (hp : (blocks ps).Perm (blocks qs)) : h.OwnedBy qs :=
  ⟨hp.nodup_iff.mp ho.nodup, fun id => (ho.live_iff id).trans hp.mem_iff⟩

theorem Heap.OwnedBy.perm (ho : h.OwnedBy ps) (hp : ps.Perm qs) :
    h.OwnedBy qs :=
  ho.of_blocks_perm (hp.filterMap _)

theorem Heap.OwnedBy.live {id : Nat} (ho : h.OwnedBy ps)
    (hp : Ptr.block id ∈ ps) : h.live id = some (h.bytes (.block id)) := by
  obtain ⟨bs, hb⟩ :=
    Option.isSome_iff_exists.mp ((ho.live_iff id).mpr (mem_blocks.mpr hp))
  rw [hb, bytes_block hb]

theorem Heap.OwnedBy.head_ne {id : Nat} (ho : h.OwnedBy (.block id :: ps))
    {q : Ptr} (hq : q ∈ ps) : q ≠ .block id := by
  rintro rfl
  have hn := ho.nodup
  rw [blocks_cons_block, List.nodup_cons] at hn
  exact hn.1 (mem_blocks.mpr hq)

/-- Changing one block keeps what every pointer to another one points to. -/
theorem Heap.bytes_of_live_eq {q : Ptr} (id : Nat) (hq : q ≠ .block id)
    (hl : ∀ i, i ≠ id → h'.live i = h.live i) : h'.bytes q = h.bytes q := by
  cases q with
  | null => rfl
  | zeroSize => rfl
  | block i =>
      have : i ≠ id := by
        rintro rfl
        exact hq rfl
      simp [bytes, hl i this]

/-! ### `kfree` -/

theorem Heap.OwnedBy.release {id : Nat} (ho : h.OwnedBy (.block id :: ps))
    (hid : (h.live id).isSome) :
    (h.release id hid).OwnedBy ps ∧ h.Keeps (h.release id hid) ps := by
  have hn := ho.nodup
  rw [blocks_cons_block, List.nodup_cons] at hn
  refine ⟨⟨hn.2, fun i => ?_⟩, ⟨fun q hq => ?_, rfl⟩⟩
  · by_cases hi : i = id
    · simp [Heap.release, hi, hn.1]
    · simp only [Heap.release, Function.update_of_ne hi, ho.live_iff,
        blocks_cons_block, List.mem_cons, hi, false_or]
  · exact bytes_of_live_eq id (ho.head_ne hq)
      (fun i hi => by simp [Heap.release, Function.update_of_ne hi])

/-- **`kfree` of an owner** gives its block back and touches no other. -/
theorem kfree_spec (ho : h.OwnedBy (p :: ps)) :
    ∃ h', kfree h p = some h' ∧ h'.OwnedBy ps ∧ h.Keeps h' ps := by
  cases p with
  | null => exact ⟨h, rfl, ⟨ho.nodup, ho.live_iff⟩, .refl h ps⟩
  | zeroSize => exact ⟨h, rfl, ⟨ho.nodup, ho.live_iff⟩, .refl h ps⟩
  | block id =>
      have hid : (h.live id).isSome := (ho.live_iff id).mpr (by simp)
      obtain ⟨h1, h2⟩ := ho.release hid
      exact ⟨h.release id hid, by simp [kfree, hid], h1, h2⟩

theorem kfree_dead {id : Nat} (hf : kfree h (.block id) = some h') :
    h'.live id = none := by
  simp only [kfree] at hf
  split at hf
  · cases hf
    simp [Heap.release]
  · cases hf

theorem kfree_all (ho : h.OwnedBy (ps ++ qs)) :
    ∃ h', ps.foldlM kfree h = some h' ∧ h'.OwnedBy qs := by
  induction ps generalizing h with
  | nil => exact ⟨h, rfl, ho⟩
  | cons p ps ih =>
      obtain ⟨h₁, hk, ho₁, -⟩ := kfree_spec ho
      obtain ⟨h', hf, ho'⟩ := ih ho₁
      exact ⟨h', by simp [hk, hf], ho'⟩

theorem Heap.OwnedBy.freed_notMem {id : Nat} (ho : h.OwnedBy ps) (hid : id ∈ h.freed) :
    Ptr.block id ∉ ps := by
  intro hmem
  have hlive := ho.live hmem
  rw [((h.mem_freed id).mp hid).2] at hlive
  cases hlive

/-! ### `krealloc` -/

/-- `q` holds the `n` bytes `krealloc` made of `p`'s: a block unless `n = 0`. -/
structure Heap.Resized (h : Heap) (p : Ptr) (n : Nat) (h' : Heap) (q : Ptr)
    (ps : List Ptr) : Prop where
  owned : h'.OwnedBy (q :: ps)
  keeps : h.Keeps h' ps
  ne_null : q ≠ .null
  isBlock : (∃ id, q = .block id) ↔ n ≠ 0
  le : n ≤ h.limit
  length : (h'.bytes q).length = n
  take : ∀ m ≤ n, m ≤ (h.bytes p).length →
    (h'.bytes q).take m = (h.bytes p).take m

theorem Heap.OwnedBy.alloc (ho : h.OwnedBy ps) (bs : List UInt8)
    (hbs : bs.length ≤ h.limit) :
    (h.alloc bs hbs).OwnedBy (.block h.next :: ps) ∧ h.Keeps (h.alloc bs hbs) ps ∧
      (h.alloc bs hbs).bytes (.block h.next) = bs := by
  have hnew : h.next ∉ blocks ps := by
    intro hm
    obtain ⟨b, hb⟩ := Option.isSome_iff_exists.mp ((ho.live_iff _).mpr hm)
    exact Nat.lt_irrefl _ (h.live_lt hb)
  refine ⟨⟨List.nodup_cons.mpr ⟨hnew, ho.nodup⟩, fun i => ?_⟩,
    ⟨fun q hq => ?_, rfl⟩, ?_⟩
  · by_cases hi : i = h.next
    · simp [Heap.alloc, hi]
    · simp only [Heap.alloc, Function.update_of_ne hi, ho.live_iff,
        blocks_cons_block, List.mem_cons, hi, false_or]
  · refine bytes_of_live_eq h.next ?_
      (fun i hi => by simp [Heap.alloc, Function.update_of_ne hi])
    rintro rfl
    exact hnew (mem_blocks.mpr hq)
  · simp [bytes, Heap.alloc]

theorem Heap.OwnedBy.set {id : Nat} (ho : h.OwnedBy (.block id :: ps))
    (bs : List UInt8) (hid : (h.live id).isSome) (hbs : bs.length ≤ h.limit) :
    (h.set id bs hid hbs).OwnedBy (.block id :: ps) ∧
      h.Keeps (h.set id bs hid hbs) ps ∧
      (h.set id bs hid hbs).bytes (.block id) = bs := by
  refine ⟨⟨ho.nodup, fun i => ?_⟩, ⟨fun q hq => ?_, rfl⟩, ?_⟩
  · by_cases hi : i = id
    · simp [Heap.set, hi]
    · simp only [Heap.set, Function.update_of_ne hi, ho.live_iff]
  · exact bytes_of_live_eq id (ho.head_ne hq)
      (fun i hi => by simp [Heap.set, Function.update_of_ne hi])
  · simp [bytes, Heap.set]

/-- The allocator grants a request for `n` bytes: nothing is asked for, or
there is memory and the request is within the limit. -/
def Kalloc.Grants (k : Kalloc) (limit n : Nat) : Prop :=
  n = 0 ∨ (k.fails = false ∧ n ≤ limit)

instance (k : Kalloc) (limit n : Nat) : Decidable (k.Grants limit n) :=
  inferInstanceAs (Decidable (_ ∨ _))

/-- **`krealloc` without memory** returns `NULL` and changes nothing. -/
theorem krealloc_null (ho : h.OwnedBy (p :: ps)) {n : Nat} {k : Kalloc}
    (hg : ¬ k.Grants h.limit n) : krealloc h p n k = some (h, .null) := by
  simp only [Kalloc.Grants, not_or, not_and] at hg
  obtain ⟨hn0, hl⟩ := hg
  cases hf : k.fails with
  | true =>
      cases p with
      | block id =>
          have hid : (h.live id).isSome := (ho.live_iff id).mpr (by simp)
          simp [krealloc, hid, hn0, hf]
      | _ => simp [krealloc, hn0, hf]
  | false =>
      cases p with
      | block id =>
          have hid : (h.live id).isSome := (ho.live_iff id).mpr (by simp)
          simp [krealloc, hid, hn0, hf, hl hf]
      | _ => simp [krealloc, hn0, hf, hl hf]

/-- **`krealloc` of an owner** with memory resizes it and touches no other. -/
theorem krealloc_spec (ho : h.OwnedBy (p :: ps)) {n : Nat} {k : Kalloc}
    (hg : k.Grants h.limit n) :
    ∃ h' q, krealloc h p n k = some (h', q) ∧ h.Resized p n h' q ps := by
  cases p with
  | block id =>
      have hl := ho.live List.mem_cons_self
      have hid : (h.live id).isSome := by simp [hl]
      have hget : (h.live id).get hid = h.bytes (.block id) := by simp [hl]
      simp only [krealloc, hid, dite_true]
      by_cases hn0 : n = 0
      · obtain ⟨h1, h2⟩ := ho.release hid
        exact ⟨h.release id hid, .zeroSize, by simp [hn0], ⟨h1.nodup, h1.live_iff⟩,
          h2, by simp, by simp [hn0], by omega, by simp [hn0], by simp [hn0]⟩
      obtain ⟨hf, hlim⟩ := hg.resolve_left hn0
      have hlen : (resize ((h.live id).get hid) n k.fill).length ≤ h.limit := by
        rw [resize_length]
        exact hlim
      cases hm : k.moves with
      | true =>
          obtain ⟨h1, h2⟩ := ho.release hid
          obtain ⟨h3, h4, h5⟩ := h1.alloc _ hlen
          refine ⟨(h.release id hid).alloc _ hlen, .block h.next,
            by simp [hn0, hf, hlim], ?_⟩
          refine ⟨h3, h2.trans h4, by simp, by simp [hn0], hlim, ?_, ?_⟩
          · exact (congrArg List.length h5).trans (resize_length _ _ _)
          · intro m hmn hmp
            refine (congrArg (List.take m) h5).trans ?_
            rw [hget]
            exact resize_take k.fill hmp hmn
      | false =>
          obtain ⟨h3, h4, h5⟩ := ho.set _ hid hlen
          refine ⟨h.set id _ hid hlen, .block id, by simp [hn0, hf, hlim], ?_⟩
          refine ⟨h3, h4, by simp, by simp [hn0], hlim, ?_, ?_⟩
          · exact (congrArg List.length h5).trans (resize_length _ _ _)
          · intro m hmn hmp
            refine (congrArg (List.take m) h5).trans ?_
            rw [hget]
            exact resize_take k.fill hmp hmn
  | _ =>
      have hps : h.OwnedBy ps := ⟨ho.nodup, ho.live_iff⟩
      simp only [krealloc]
      by_cases hn0 : n = 0
      · exact ⟨h, .zeroSize, by simp [hn0], ⟨ho.nodup, ho.live_iff⟩,
          .refl h ps, by simp, by simp [hn0], by omega, by simp [hn0], by simp⟩
      obtain ⟨hf, hlim⟩ := hg.resolve_left hn0
      have hlen : (resize [] n k.fill).length ≤ h.limit := by
        rw [resize_length]
        exact hlim
      obtain ⟨h3, h4, h5⟩ := hps.alloc _ hlen
      refine ⟨h.alloc _ hlen, .block h.next, by simp [hn0, hf, hlim], ?_⟩
      refine ⟨h3, h4, by simp, by simp [hn0], hlim, ?_, ?_⟩
      · exact (congrArg List.length h5).trans (resize_length _ _ _)
      · intro m _ hmp
        have : m = 0 := by simpa using hmp
        simp [this]

/-- `krealloc` on a block that is not live is undefined. -/
theorem krealloc_dead {id n : Nat} (hd : h.live id = none) (k : Kalloc) :
    krealloc h (.block id) n k = none := by
  simp [krealloc, hd]

/-! ### Accesses -/

theorem Heap.read_spec {off n : Nat} (ho : h.OwnedBy ps) (hp : p ∈ ps)
    (hn : off + n ≤ (h.bytes p).length) :
    h.read p off n = some (((h.bytes p).drop off).take n) := by
  by_cases hn0 : n = 0
  · simp [read, hn0]
  · cases p with
    | block id => simp [read, hn0, ho.live hp, hn]
    | _ => simp only [bytes_null, bytes_zeroSize, List.length_nil] at hn; omega

/-- Reading one byte or more through a null-like pointer is undefined. -/
theorem Heap.read_null {off n : Nat} (hp : blocks [p] = []) (hn : n ≠ 0) :
    h.read p off n = none := by
  cases p <;> simp_all [read]

theorem Heap.write_spec {off : Nat} {ds : List UInt8}
    (ho : h.OwnedBy (p :: ps)) (hn : off + ds.length ≤ (h.bytes p).length) :
    ∃ h', h.write p off ds = some h' ∧ h'.OwnedBy (p :: ps) ∧ h.Keeps h' ps ∧
      h'.bytes p = overwrite (h.bytes p) off ds := by
  by_cases hds : ds = []
  · refine ⟨h, by simp [write, hds], ho, .refl h ps, ?_⟩
    simp [overwrite, hds]
  · cases p with
    | block id =>
        have hl := ho.live List.mem_cons_self
        have hid : (h.live id).isSome := by simp [hl]
        have hget : (h.live id).get hid = h.bytes (.block id) := by simp [hl]
        have hlen : (overwrite (h.bytes (.block id)) off ds).length ≤ h.limit := by
          rw [overwrite_length hn]
          exact h.bytes_le _
        obtain ⟨h1, h2, h3⟩ := ho.set (overwrite (h.bytes (.block id)) off ds) hid hlen
        refine ⟨_, ?_, h1, h2, h3⟩
        simp [write, hds, hid, hget, hn]
    | _ =>
        have : ds.length = 0 := by
          simp only [bytes_null, bytes_zeroSize, List.length_nil] at hn
          omega
        exact absurd (List.eq_nil_of_length_eq_zero this) hds

theorem overwrite_take {bs ds : List UInt8} {off : Nat} (h : off ≤ bs.length) :
    (overwrite bs off ds).take off = bs.take off := by
  rw [overwrite, List.append_assoc,
    List.take_append_of_le_length (by rw [List.length_take]; omega), List.take_take,
    Nat.min_self]

theorem overwrite_end {bs ds : List UInt8} {off : Nat}
    (h : off + ds.length = bs.length) : overwrite bs off ds = bs.take off ++ ds := by
  rw [overwrite, List.drop_eq_nil_of_le (by omega), List.append_nil]

theorem memchr_spec {c : UInt8} {n : Nat} (ho : h.OwnedBy ps) (hp : p ∈ ps)
    (hn : n ≤ (h.bytes p).length) :
    memchr h p c n = some (decide (c ∈ (h.bytes p).take n)) := by
  rw [memchr, Heap.read_spec ho hp (by omega)]
  simp

/-- **`copy_from_user` to an owner** never touches the bytes before the
destination; without a fault the source is there. -/
theorem copyFromUser_spec {off : Nat} {buf : List UInt8} (ho : h.OwnedBy (p :: ps))
    (hn : off + buf.length ≤ (h.bytes p).length) (fault : Option (Nat → UInt8)) :
    ∃ h', copyFromUser h p off buf fault
        = some (h', fault.isSome && decide (buf ≠ [])) ∧
      h'.OwnedBy (p :: ps) ∧ h.Keeps h' ps ∧
      (h'.bytes p).length = (h.bytes p).length ∧
      (h'.bytes p).take off = (h.bytes p).take off ∧
      ((fault.isSome && decide (buf ≠ [])) = false →
        h'.bytes p = overwrite (h.bytes p) off buf) := by
  cases fault with
  | none =>
      obtain ⟨h', hw, h1, h2, h3⟩ := Heap.write_spec ho hn
      refine ⟨h', by simp [copyFromUser, hw], h1, h2, ?_, ?_, fun _ => h3⟩
      · rw [h3, overwrite_length hn]
      · rw [h3, overwrite_take (by omega)]
  | some residue =>
      have hlen : off + ((List.range buf.length).map residue).length
          ≤ (h.bytes p).length := by simpa using hn
      obtain ⟨h', hw, h1, h2, h3⟩ := Heap.write_spec ho hlen
      refine ⟨h', by simp [copyFromUser, hw], h1, h2, ?_, ?_, ?_⟩
      · rw [h3, overwrite_length hlen]
      · rw [h3, overwrite_take (by omega)]
      · intro hb
        have hnil : buf = [] := by simpa using hb
        rw [h3, hnil]
        rfl

end

end Aesd.Lib
