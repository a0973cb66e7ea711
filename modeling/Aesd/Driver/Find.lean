import Aesd.Driver.CircularBuffer

/-!
# The offset search

What `aesd_circular_buffer_find_entry_offset_for_fpos` computes on a ring
that holds entries. With a non-empty oldest entry the running size is at
least one from the first round on, so `current_string_size - 1` does not
wrap and the loop is `locate` on the sizes of the stored entries. With an
empty oldest entry (in particular on an empty ring) it does wrap, and the
search takes the first slot whatever the offset is.
-/

namespace Aesd.Driver

open Aesd.Lib

/-- The sizes of the stored entries, oldest first. -/
def AesdCircularBuffer.sizes (buffer : AesdCircularBuffer) : List Nat :=
  buffer.stored.map AesdBufferEntry.size

/-- The search's result in terms of a position in the stored entries. -/
def found (start rtn : Nat) : Option (Nat × Nat) → Option Nat × Nat
  | some (i, k) => (some ((start + i) % 10), k)
  | none => (none, rtn)

theorem found_succ (start rtn : Nat) (r : Option (Nat × Nat)) :
    found start rtn (r.map fun (i, k) => (i + 1, k)) = found (start + 1) rtn r := by
  cases r with
  | none => rfl
  | some ik =>
      simp only [found, Option.map_some]
      rw [show start + (ik.1 + 1) = start + 1 + ik.1 by omega]

/-- The running size after one more slot, without wrapping. -/
private theorem size_add {pre n : Nat} (h : pre + n < 2 ^ 64) :
    toU64 ((pre : Int) + n) = pre + n := by
  have := toU64_natCast h
  push_cast at this
  exact this

private theorem size_pred {n : Nat} (h0 : 0 < n) (h : n < 2 ^ 64) :
    toU64 ((n : Int) - 1) = n - 1 := by
  have := toU64_of_range (x := (n : Int) - 1) (by omega) (by omega)
  omega

private theorem size_sub {m n : Nat} (hmn : n ≤ m) (h : m < 2 ^ 64) :
    toU64 ((m : Int) - n) = m - n := by
  have := toU64_of_range (x := (m : Int) - n) (by omega) (by omega)
  omega

/-- **The loop**, with `m + 1` slots to go from the slot `a`, the sizes before
it summing to `pre`: the induction is on `m`, and what carries it is that the
offset was not reached yet and that the running size is not zero. -/
theorem findLoop_spec (b : AesdCircularBuffer) (charOffset rtn m : Nat) :
    ∀ {a pre fuel : Nat}, m < 10 → m < fuel →
      (a + (m + 1)) % 10 = b.inOffs → 0 < pre + (b.at (a % 10)).size →
      pre ≤ charOffset →
      pre + ((window b.at 10 a (m + 1)).map AesdBufferEntry.size).sum < 2 ^ 64 →
      findLoop b charOffset fuel (a % 10) pre rtn
        = some (found a rtn (locate
            ((window b.at 10 a (m + 1)).map AesdBufferEntry.size)
            (charOffset - pre))) := by
  induction m with
  | zero =>
      intro a pre fuel _ hfuel hstop hpos hle hsum
      obtain ⟨fuel, rfl⟩ : ∃ f, fuel = f + 1 := ⟨fuel - 1, by omega⟩
      rw [window_cons] at hsum ⊢
      simp only [window_zero, List.map_cons, List.map_nil, List.sum_cons,
        List.sum_nil, Nat.add_zero] at hsum ⊢
      simp only [findLoop, size_add hsum, size_pred hpos hsum]
      by_cases hhit : charOffset - pre < (b.at (a % 10)).size
      · rw [if_pos (by omega), locate_cons_lt hhit,
          size_sub (by omega) hsum, Nat.add_sub_cancel,
          size_sub hle (by omega)]
        simp [found]
      · rw [if_neg (by omega), locate_cons_ge (by omega)]
        have hnext : (a % 10 + 1) % maxWriteOperationsSupported = b.inOffs := by
          rw [← hstop]
          simp only [maxWriteOperationsSupported]
          omega
        simp [hnext, found]
  | succ m ih =>
      intro a pre fuel hm hfuel hstop hpos hle hsum
      obtain ⟨fuel, rfl⟩ : ∃ f, fuel = f + 1 := ⟨fuel - 1, by omega⟩
      rw [window_cons] at hsum ⊢
      simp only [List.map_cons, List.sum_cons] at hsum ⊢
      have hcur : pre + (b.at (a % 10)).size < 2 ^ 64 := by omega
      simp only [findLoop, size_add hcur, size_pred hpos hcur]
      by_cases hhit : charOffset - pre < (b.at (a % 10)).size
      · rw [if_pos (by omega), locate_cons_lt hhit,
          size_sub (by omega) hcur, Nat.add_sub_cancel,
          size_sub hle (by omega)]
        simp [found]
      · rw [if_neg (by omega), locate_cons_ge (by omega)]
        have hnext : (a % 10 + 1) % maxWriteOperationsSupported = (a + 1) % 10 := by
          simp only [maxWriteOperationsSupported]
          omega
        have hne : (a + 1) % 10 ≠ b.inOffs := by
          rw [← hstop, show a + 1 = a + 1 + 0 by omega,
            show a + (m + 1 + 1) = a + 1 + (m + 1) by omega]
          exact mod_add_ne _ (by omega) (by omega)
        rw [hnext, if_pos hne, ih (by omega) (by omega)
          (by rw [← hstop]; congr 1; omega) (by omega) (by omega)
          (by omega), ← found_succ]
        rw [show charOffset - (pre + (b.at (a % 10)).size)
          = charOffset - pre - (b.at (a % 10)).size by omega]

section
variable {b : AesdCircularBuffer} {es : List AesdBufferEntry} {charOffset rtn : Nat}

/-- **The search is `locate`** when the oldest entry is not empty. -/
theorem find_of_pos (h : Holds b es) {n : Nat} {ns : List Nat}
    (hs : b.sizes = n :: ns) (hn : 0 < n) (hsum : b.sizes.sum < 2 ^ 64) :
    aesdCircularBufferFindEntryOffsetForFpos b charOffset rtn
      = some (found b.outOffs rtn (locate b.sizes charOffset)) := by
  have hlen : b.sizes.length = b.count := by
    simp [AesdCircularBuffer.sizes, AesdCircularBuffer.stored]
  have hcount : b.count = (b.count - 1) + 1 := by
    rw [hs, List.length_cons] at hlen
    omega
  have hle : b.count ≤ 10 := by
    rw [h.count]
    omega
  have hout := h.outOffs_lt
  have hw : b.sizes
      = (window b.at 10 b.outOffs (b.count - 1 + 1)).map AesdBufferEntry.size := by
    rw [← hcount]
    rfl
  have hhead : (b.at (b.outOffs % 10)).size = n := by
    rw [hw, window_cons, List.map_cons] at hs
    exact (List.cons.inj hs).1
  have hloop : findLoop b charOffset 10 (b.outOffs % 10) 0 rtn
      = some (found b.outOffs rtn (locate
          ((window b.at 10 b.outOffs (b.count - 1 + 1)).map AesdBufferEntry.size)
          (charOffset - 0))) :=
    findLoop_spec b charOffset rtn (b.count - 1) (by omega) (by omega)
      (by rw [← hcount]; exact h.end_eq) (by omega) (by omega)
      (by rw [← hw]; omega)
  rw [← hw, Nat.sub_zero, Nat.mod_eq_of_lt hout] at hloop
  exact hloop

/-- **The wrapped comparison.** When the slot at `out_offs` is empty the
running size is zero, `current_string_size - 1` is the largest `size_t`, and
the search returns that slot with the whole offset as index. -/
theorem find_of_zero (hz : (b.at b.outOffs).size = 0) (hlt : charOffset < 2 ^ 64) :
    aesdCircularBufferFindEntryOffsetForFpos b charOffset rtn
      = some (some b.outOffs, charOffset) := by
  have hmax : toU64 ((toU64 (((0 : Nat) : Int) + (0 : Nat)) : Int) - 1)
      = 2 ^ 64 - 1 := by decide
  have hsub : toU64 ((charOffset : Int)
      - toU64 ((toU64 (((0 : Nat) : Int) + (0 : Nat)) : Int) - (0 : Nat)))
      = charOffset := by
    have h0 : toU64 ((toU64 (((0 : Nat) : Int) + (0 : Nat)) : Int) - (0 : Nat)) = 0 := by
      decide
    rw [h0]
    simpa using toU64_natCast hlt
  simp only [aesdCircularBufferFindEntryOffsetForFpos, findLoop, hz, hmax, hsub]
  rw [if_pos (by omega)]

theorem stored_getElem {i : Nat} (hi : i < b.stored.length) :
    b.at ((b.outOffs + i) % 10) = b.stored[i] :=
  (window_getElem b.at hi).symm

@[simp] theorem sizes_length (b : AesdCircularBuffer) :
    b.sizes.length = b.stored.length := by
  simp [AesdCircularBuffer.sizes]

theorem sizes_getElem {i : Nat} (hs : i < b.sizes.length) (hi : i < b.stored.length) :
    b.sizes[i] = (b.stored[i]).size := by
  simp [AesdCircularBuffer.sizes]

end

/-! ## When the search is exact -/

/-- The search is exact at a position: inside the stored bytes it returns the
one slot and the one index there, past their end `NULL`, with
`*entry_offset_byte_rtn` as it was. -/
structure SearchExact (b : AesdCircularBuffer) (charOffset rtn : Nat) : Prop where
  hit : charOffset < b.sizes.sum →
    ∃ i k, ∃ hi : i < b.stored.length,
      aesdCircularBufferFindEntryOffsetForFpos b charOffset rtn
        = some (some ((b.outOffs + i) % 10), k) ∧
      b.at ((b.outOffs + i) % 10) = b.stored[i] ∧
      k < (b.stored[i]).size ∧ (b.sizes.take i).sum + k = charOffset ∧
      ∀ j l, ∀ hj : j < b.stored.length, l < (b.stored[j]).size →
        (b.sizes.take j).sum + l = charOffset → j = i ∧ l = k
  miss : b.sizes.sum ≤ charOffset →
    aesdCircularBufferFindEntryOffsetForFpos b charOffset rtn = some (none, rtn)

/-- The ring has an entry, and its oldest one is not empty. -/
def OldestNonempty (b : AesdCircularBuffer) : Prop :=
  ∃ e rest, b.stored = e :: rest ∧ 0 < e.size

section
variable {b : AesdCircularBuffer} {es : List AesdBufferEntry} {charOffset rtn : Nat}

theorem Holds.searchExact (h : Holds b es) (ho : OldestNonempty b)
    (hsum : b.sizes.sum < 2 ^ 64) : SearchExact b charOffset rtn := by
  obtain ⟨e, rest, hstored, hpos⟩ := ho
  have hsizes : b.sizes = e.size :: rest.map AesdBufferEntry.size := by
    rw [AesdCircularBuffer.sizes, hstored, List.map_cons]
  have hfind : aesdCircularBufferFindEntryOffsetForFpos b charOffset rtn
      = some (found b.outOffs rtn (locate b.sizes charOffset)) :=
    find_of_pos h hsizes hpos hsum
  constructor
  · intro hlt
    obtain ⟨i, k, hl⟩ := locate_isSome hlt
    obtain ⟨hs, hk, hsum⟩ := locate_spec hl
    have hi : i < b.stored.length := by rwa [sizes_length] at hs
    rw [sizes_getElem hs hi] at hk
    rw [hl] at hfind
    refine ⟨i, k, hi, hfind, stored_getElem hi, hk, hsum, ?_⟩
    · intro j l hj hl' hsum'
      have hs' : j < b.sizes.length := by rwa [sizes_length]
      have hlocate : locate b.sizes charOffset = some (j, l) :=
        locate_eq_some_iff.mpr ⟨hs', by rwa [sizes_getElem hs' hj], hsum'⟩
      rw [hl] at hlocate
      cases hlocate
      exact ⟨rfl, rfl⟩
  · intro hge
    rw [hfind, locate_eq_none_iff.mpr hge]
    rfl

/-- With an empty oldest entry, or none, the slot at `out_offs` is empty. -/
theorem Holds.oldest_empty (h : Holds b es) (ho : ¬ OldestNonempty b) :
    (b.at b.outOffs).size = 0 := by
  have hout := h.outOffs_lt
  cases hstored : b.stored with
  | nil =>
      have hcount : b.count = 0 := by
        have := congrArg List.length hstored
        simpa [AesdCircularBuffer.stored] using this
      rw [h.at_unused fun j hj => by omega]
  | cons e rest =>
      have hhead := stored_getElem (b := b) (i := 0) (by simp [hstored])
      simp only [hstored, List.getElem_cons_zero, Nat.add_zero, Nat.mod_eq_of_lt hout] at hhead
      rw [hhead]
      by_contra hne
      exact ho ⟨e, rest, hstored, Nat.pos_of_ne_zero hne⟩

theorem Holds.not_searchExact (h : Holds b es) (ho : ¬ OldestNonempty b)
    (hlt : charOffset < 2 ^ 64) : ¬ SearchExact b charOffset rtn := by
  intro hexact
  have hfind : aesdCircularBufferFindEntryOffsetForFpos b charOffset rtn
      = some (some b.outOffs, charOffset) := find_of_zero (h.oldest_empty ho) hlt
  rcases Nat.lt_or_ge charOffset b.sizes.sum with hin | hpast
  · obtain ⟨i, k, hi, hslot, hat, hk, -, -⟩ := hexact.hit hin
    rw [hfind] at hslot
    simp only [Option.some.injEq, Prod.mk.injEq] at hslot
    -- the slot is `out_offs`, whose size is 0
    rw [← hat, ← hslot.1, h.oldest_empty ho] at hk
    omega
  · have hnone := hexact.miss hpast
    rw [hfind] at hnone
    cases hnone

end

/-- **The search is exact exactly when** the ring has an entry and the oldest
one is not empty. Otherwise the running size is 0 at the first slot, the
comparison is with `0 - 1`, and every position is found there. -/
theorem search_exact_iff (es : List AesdBufferEntry) (charOffset rtn : Nat)
    (hlt : charOffset < 2 ^ 64) :
    let b := es.foldl aesdCircularBufferAddEntry aesdCircularBufferInit
    b.sizes.sum < 2 ^ 64 →
      (SearchExact b charOffset rtn ↔ OldestNonempty b) := by
  intro b hsum
  have h : Holds b es := holds_foldl es holds_init
  constructor
  · intro hexact
    by_contra ho
    exact h.not_searchExact ho hlt hexact
  · exact fun ho => h.searchExact ho hsum

theorem search_exact_iff_one_entry :
    SearchExact (aesdCircularBufferAddEntry aesdCircularBufferInit ⟨.block 0, 3⟩) 2 0 ↔
      OldestNonempty (aesdCircularBufferAddEntry aesdCircularBufferInit ⟨.block 0, 3⟩) :=
  search_exact_iff [⟨.block 0, 3⟩] 2 0 (by decide) (by decide)

/-- The search for position 0 of a ring just initialised finds a slot. -/
theorem search_finds_in_empty_ring :
    ¬ ∀ (es : List AesdBufferEntry) (charOffset rtn : Nat), charOffset < 2 ^ 64 →
      (es.foldl aesdCircularBufferAddEntry aesdCircularBufferInit).sizes.sum < 2 ^ 64 →
      SearchExact (es.foldl aesdCircularBufferAddEntry aesdCircularBufferInit)
        charOffset rtn := by
  intro hall
  have hmiss := (hall [] 0 0 (by decide) (by decide)).miss (by decide)
  revert hmiss
  decide

end Aesd.Driver
