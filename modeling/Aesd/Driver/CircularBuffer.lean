import Aesd.Lib.CInt
import Aesd.Lib.Kmalloc
import Aesd.Lib.Locate
import Aesd.Lib.Window

/-!
# The circular buffer

`aesd-char-driver/aesd-circular-buffer.[ch]`: ten slots, the two `uint8_t`
offsets and the full flag, with the three functions on them. The length is
not stored: `in_offs = out_offs` means empty or full, and only the flag tells
them apart.

`Holds b es` is the ring after adding the entries `es` to an empty one, in
terms of `es` alone. Adding an entry keeps it (`Holds.addEntry`), and the
search meets `locate` on the sizes of the stored entries
(`find_of_pos`), provided the oldest one is not empty.
-/

namespace Aesd.Driver

open Aesd.Lib

/-- `AESDCHAR_MAX_WRITE_OPERATIONS_SUPPORTED`. -/
abbrev maxWriteOperationsSupported : Nat := 10

/-- `struct aesd_buffer_entry`. -/
structure AesdBufferEntry where
  buffptr : Ptr
  size : Nat
  deriving DecidableEq, Repr

/-- `struct aesd_circular_buffer`. -/
structure AesdCircularBuffer where
  entry : Vector AesdBufferEntry maxWriteOperationsSupported
  inOffs : Nat
  outOffs : Nat
  full : Bool
  deriving DecidableEq, Repr

/-- `buffer->entry[i]`. -/
def AesdCircularBuffer.at (buffer : AesdCircularBuffer) (i : Nat) :
    AesdBufferEntry :=
  (buffer.entry[i]?).getD ⟨.null, 0⟩

/-- `aesd_circular_buffer_init`: all bytes zero. -/
def aesdCircularBufferInit : AesdCircularBuffer where
  entry := Vector.replicate maxWriteOperationsSupported ⟨.null, 0⟩
  inOffs := 0
  outOffs := 0
  full := false

/-- `aesd_circular_buffer_add_entry`. -/
def aesdCircularBufferAddEntry (buffer : AesdCircularBuffer)
    (addEntry : AesdBufferEntry) : AesdCircularBuffer :=
  let entry := buffer.entry.setIfInBounds buffer.inOffs addEntry
  -- a full buffer has lost its oldest entry to the write
  let outOffs :=
    if buffer.full then (buffer.outOffs + 1) % maxWriteOperationsSupported
    else buffer.outOffs
  let inOffs := (buffer.inOffs + 1) % maxWriteOperationsSupported
  { entry, inOffs, outOffs, full := inOffs == outOffs }

/-- The do-while loop of the search, from slot `offset` with running size
`currentStringSize`: the slot found (`none` is `NULL`) and the value left in
`*entry_offset_byte_rtn`. It goes round at most once when `in_offs` is a
slot; a loop that goes on past `fuel` slots never ends. -/
def findLoop (buffer : AesdCircularBuffer) (charOffset : Nat) :
    Nat → Nat → Nat → Nat → Option (Option Nat × Nat)
  | 0, _, _, _ => none
  | fuel + 1, offset, currentStringSize, entryOffsetByteRtn =>
      let size := (buffer.at offset).size
      let currentStringSize := toU64 (currentStringSize + size)
      if charOffset ≤ toU64 (currentStringSize - 1) then
        some (some offset, toU64 (charOffset - toU64 (currentStringSize - size)))
      else
        let offset := (offset + 1) % maxWriteOperationsSupported
        if offset ≠ buffer.inOffs then
          findLoop buffer charOffset fuel offset currentStringSize
            entryOffsetByteRtn
        else
          some (none, entryOffsetByteRtn)

/-- `aesd_circular_buffer_find_entry_offset_for_fpos`. -/
def aesdCircularBufferFindEntryOffsetForFpos (buffer : AesdCircularBuffer)
    (charOffset entryOffsetByteRtn : Nat) : Option (Option Nat × Nat) :=
  findLoop buffer charOffset maxWriteOperationsSupported buffer.outOffs 0
    entryOffsetByteRtn

/-! ## The stored entries -/

/-- How many entries are stored: all ten slots if full, else the first
`in_offs`. -/
def AesdCircularBuffer.count (buffer : AesdCircularBuffer) : Nat :=
  if buffer.full then maxWriteOperationsSupported else buffer.inOffs

/-- The stored entries, oldest first, read from `out_offs` in ring order. -/
def AesdCircularBuffer.stored (buffer : AesdCircularBuffer) :
    List AesdBufferEntry :=
  window buffer.at maxWriteOperationsSupported buffer.outOffs buffer.count

/-- The ring after adding the entries `es` to an empty one. -/
structure Holds (b : AesdCircularBuffer) (es : List AesdBufferEntry) : Prop where
  inOffs : b.inOffs = es.length % 10
  outOffs : b.outOffs = if es.length < 10 then 0 else es.length % 10
  full : b.full = decide (10 ≤ es.length)
  stored : b.stored = es.rtake 10
  unused : ∀ i, es.length ≤ i → b.at i = ⟨.null, 0⟩

@[simp] theorem at_init (i : Nat) : aesdCircularBufferInit.at i = ⟨.null, 0⟩ := by
  simp only [AesdCircularBuffer.at, aesdCircularBufferInit,
    Vector.getElem?_replicate]
  split <;> rfl

theorem at_of_ge {i : Nat} (b : AesdCircularBuffer) (h : 10 ≤ i) :
    b.at i = ⟨.null, 0⟩ := by
  simp [AesdCircularBuffer.at, Vector.getElem?_eq_none h]

theorem at_addEntry {b : AesdCircularBuffer} (h : b.inOffs < 10)
    (e : AesdBufferEntry) :
    (aesdCircularBufferAddEntry b e).at = Function.update b.at b.inOffs e := by
  funext i
  simp only [AesdCircularBuffer.at, aesdCircularBufferAddEntry,
    Vector.getElem?_setIfInBounds]
  by_cases hi : i = b.inOffs
  · simp [hi, h]
  · rw [Function.update_of_ne hi, if_neg (Ne.symm hi)]
    rfl

section
variable {b : AesdCircularBuffer} {es : List AesdBufferEntry}

theorem Holds.inOffs_lt (h : Holds b es) : b.inOffs < 10 := by
  rw [h.inOffs]
  omega

theorem Holds.outOffs_lt (h : Holds b es) : b.outOffs < 10 := by
  rw [h.outOffs]
  split <;> omega

theorem Holds.count (h : Holds b es) : b.count = min es.length 10 := by
  rw [AesdCircularBuffer.count, h.full, h.inOffs]
  by_cases hn : 10 ≤ es.length
  · simp [hn]
  · simp only [hn, decide_false, Bool.false_eq_true, if_false]
    omega

theorem Holds.end_eq (h : Holds b es) : (b.outOffs + b.count) % 10 = b.inOffs := by
  rw [h.count, h.inOffs, h.outOffs]
  split <;> omega

theorem holds_init : Holds aesdCircularBufferInit [] where
  inOffs := rfl
  outOffs := rfl
  full := rfl
  stored := rfl
  unused := fun i _ => at_init i

/-- In the fill phase the entry lands after the window, which starts at slot
0. -/
theorem Holds.addEntry_space (h : Holds b es) (e : AesdBufferEntry) (hn : es.length < 10) :
    Holds (aesdCircularBufferAddEntry b e) (es ++ [e]) := by
  have hat := at_addEntry h.inOffs_lt e
  have hwin : window b.at 10 b.outOffs b.count = es.rtake 10 := h.stored
  have hcount := h.count
  have hin := h.inOffs
  have hout := h.outOffs
  have hfull := h.full
  have hfull' : b.full = false := by simpa [hfull] using hn
  have hout' : b.outOffs = 0 := by simpa [hn] using hout
  have hin' : b.inOffs = es.length := by omega
  have hcount' : b.count = es.length := by omega
  have hfull'' : (aesdCircularBufferAddEntry b e).full
      = decide (10 ≤ (es ++ [e]).length) := by
    simp only [aesdCircularBufferAddEntry, hfull', hin', hout',
      Bool.false_eq_true, if_false, List.length_append, List.length_singleton,
      maxWriteOperationsSupported]
    by_cases h9 : es.length = 9
    · simp [h9]
    · have : (es.length + 1) % 10 ≠ 0 := by omega
      simp only [beq_eq_decide, this, decide_false]
      symm
      simp only [decide_eq_false_iff_not]
      omega
  have hin'' : (aesdCircularBufferAddEntry b e).inOffs = (es.length + 1) % 10 := by
    simp [aesdCircularBufferAddEntry, hin']
  have hout'' : (aesdCircularBufferAddEntry b e).outOffs = 0 := by
    simp [aesdCircularBufferAddEntry, hfull', hout']
  have hcount'' : (aesdCircularBufferAddEntry b e).count = es.length + 1 := by
    rw [AesdCircularBuffer.count, hfull'', hin'']
    by_cases h9 : es.length = 9
    · simp [h9]
    · have : ¬ 10 ≤ (es ++ [e]).length := by simp; omega
      simp only [this, decide_false, Bool.false_eq_true, if_false]
      omega
  refine ⟨by simp [hin''], ?_, hfull'', ?_, ?_⟩
  · rw [hout'']
    simp only [List.length_append, List.length_singleton]
    split <;> omega
  · rw [AesdCircularBuffer.stored, hout'', hcount'', hat, hin']
    have happ := window_append b.at 0 e hn
    rw [Nat.zero_add, Nat.mod_eq_of_lt hn] at happ
    rw [happ, ← hout', ← hcount', hwin,
      rtake_of_length_le (l := es) (by omega),
      rtake_of_length_le (by simp; omega)]
  · intro i hi
    simp only [List.length_append, List.length_singleton] at hi
    rw [hat, Function.update_of_ne (by omega), h.unused i (by omega)]

/-- On a full ring the entry replaces the oldest one, and the window moves
on. -/
theorem Holds.addEntry_full (h : Holds b es) (e : AesdBufferEntry) (hn : 10 ≤ es.length) :
    Holds (aesdCircularBufferAddEntry b e) (es ++ [e]) := by
  have hat := at_addEntry h.inOffs_lt e
  have hwin : window b.at 10 b.outOffs b.count = es.rtake 10 := h.stored
  have hcount := h.count
  have hin := h.inOffs
  have hout := h.outOffs
  have hfull := h.full
  have hfull' : b.full = true := by simpa [hfull] using hn
  have hout' : b.outOffs = es.length % 10 := by
    rw [hout, if_neg (by omega)]
  have hin'' : (aesdCircularBufferAddEntry b e).inOffs = (es.length + 1) % 10 := by
    simp only [aesdCircularBufferAddEntry, hin, maxWriteOperationsSupported]
    omega
  have hout'' : (aesdCircularBufferAddEntry b e).outOffs = (es.length + 1) % 10 := by
    simp only [aesdCircularBufferAddEntry, hfull', hout', if_true,
      maxWriteOperationsSupported]
    omega
  have hfull'' : (aesdCircularBufferAddEntry b e).full = true := by
    have : (aesdCircularBufferAddEntry b e).full
        = ((aesdCircularBufferAddEntry b e).inOffs
          == (aesdCircularBufferAddEntry b e).outOffs) := rfl
    rw [this, hin'', hout'']
    simp
  have hcount'' : (aesdCircularBufferAddEntry b e).count = 10 := by
    simp [AesdCircularBuffer.count, hfull'']
  refine ⟨by simp [hin''], ?_, ?_, ?_, ?_⟩
  · rw [hout'', if_neg (by simp; omega)]
    simp
  · rw [hfull'']
    symm
    simp only [decide_eq_true_eq, List.length_append, List.length_singleton]
    omega
  · have hcount' : b.count = 10 := by omega
    rw [hcount', hout'] at hwin
    have hover := window_overwrite b.at (es.length % 10) (N := 10) e (by omega)
    rw [Nat.mod_mod] at hover
    rw [AesdCircularBuffer.stored, hout'', hcount'', hat, hin,
      show (es.length + 1) % 10 = (es.length % 10 + 1) % 10 by omega,
      window_mod, hover, hwin, rtake_concat_of_le hn (by omega)]
  · intro i hi
    simp only [List.length_append, List.length_singleton] at hi
    exact at_of_ge _ (by omega)

/-- **Adding an entry.** The fill phase, the step to full and every later
overwrite: the ring holds one entry more. -/
theorem Holds.addEntry (h : Holds b es) (e : AesdBufferEntry) :
    Holds (aesdCircularBufferAddEntry b e) (es ++ [e]) := by
  rcases Nat.lt_or_ge es.length 10 with hn | hn
  · exact h.addEntry_space e hn
  · exact h.addEntry_full e hn

theorem holds_foldl (es' : List AesdBufferEntry) (h : Holds b es) :
    Holds (es'.foldl aesdCircularBufferAddEntry b) (es ++ es') := by
  induction es' generalizing b es with
  | nil => simpa using h
  | cons e es' ih => simpa using ih (h.addEntry e)

theorem Holds.at_unused (h : Holds b es) {i : Nat}
    (hi : ∀ j < b.count, (b.outOffs + j) % 10 ≠ i) : b.at i = ⟨.null, 0⟩ := by
  rcases Nat.lt_or_ge i 10 with hlt | hge
  · apply h.unused
    have hcount := h.count
    have hout := h.outOffs
    by_contra hlen
    rcases Nat.lt_or_ge es.length 10 with hn | hn
    · rw [if_pos hn] at hout
      exact hi i (by omega) (by omega)
    · rw [if_neg (by omega)] at hout
      exact hi ((i + 10 - b.outOffs) % 10) (by omega) (by omega)
  · exact at_of_ge b hge

/-- **The ring refines a bounded log.** After any number of additions to an
empty ring, the offsets, the flag and the slots are what the added entries
say: the stored ones are the last ten, oldest first. -/
theorem ring_refines_log (es : List AesdBufferEntry) :
    let b := es.foldl aesdCircularBufferAddEntry aesdCircularBufferInit
    b.inOffs < 10 ∧ b.outOffs < 10 ∧
    b.inOffs = es.length % 10 ∧
    (b.full = true ↔ 10 ≤ es.length) ∧
    (b.full = true → ∀ es' : List AesdBufferEntry,
      (es'.foldl aesdCircularBufferAddEntry b).full = true) ∧
    (b.full = true ↔ b.inOffs = b.outOffs ∧ 0 < es.length) ∧
    (b.full = false → b.outOffs = 0) ∧
    (b.full = true → b.outOffs = b.inOffs) ∧
    b.stored = es.rtake 10 ∧
    (∀ i < 10, (∀ j < b.count, (b.outOffs + j) % 10 ≠ i) →
      b.at i = ⟨.null, 0⟩) := by
  intro b
  have h : Holds b es := holds_foldl es holds_init
  have hfull : b.full = true ↔ 10 ≤ es.length := by rw [h.full]; simp
  have hin := h.inOffs
  have hout := h.outOffs
  refine ⟨h.inOffs_lt, h.outOffs_lt, hin, hfull, ?_, ?_, ?_, ?_, h.stored,
    fun i _ hi => h.at_unused hi⟩
  · intro hb es'
    have h' := holds_foldl es' h
    rw [h'.full]
    have := hfull.mp hb
    simp only [List.length_append, decide_eq_true_eq]
    omega
  · rw [hfull]
    split at hout <;> omega
  · intro hb
    rw [h.full, decide_eq_false_iff_not] at hb
    rw [hout, if_pos (by omega)]
  · intro hb
    have := hfull.mp hb
    rw [hout, if_neg (by omega), hin]

end

end Aesd.Driver
