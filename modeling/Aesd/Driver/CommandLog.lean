import Aesd.Driver.CharDevice
import Aesd.Lib.Framing

/-!
# The command log

What the device is for, with no heap, ring or offsets: an append-only log of
commands, and the bytes of the command being written. A chunk joins the
pending bytes; a chunk with a newline anywhere in it closes the command. The
device keeps the last ten commands, and a reader sees their concatenation.
-/

namespace Aesd.Driver

open Aesd.Lib

/-- The commands committed since the device was initialised, oldest first,
and the pending bytes. -/
@[ext] structure CommandLog where
  commands : List (List UInt8)
  pending : List UInt8
  newline_mem : ∀ c ∈ commands, newline ∈ c
  newline_notMem : newline ∉ pending

/-- The log of a device just initialised. -/
def CommandLog.empty : CommandLog := ⟨[], [], by simp, by simp⟩

/-- A chunk is written. -/
def CommandLog.write (log : CommandLog) (chunk : List UInt8) : CommandLog :=
  if h : newline ∈ chunk then
    { commands := log.commands ++ [log.pending ++ chunk]
      pending := []
      newline_mem := by
        intro c hc
        rcases List.mem_append.mp hc with hc | hc
        · exact log.newline_mem c hc
        · rw [List.mem_singleton.mp hc]
          exact List.mem_append_right _ h
      newline_notMem := by simp }
  else
    { commands := log.commands
      pending := log.pending ++ chunk
      newline_mem := log.newline_mem
      newline_notMem := by simp [log.newline_notMem, h] }

/-- The log of a sequence of chunks. -/
def commandLog (chunks : List (List UInt8)) : CommandLog :=
  chunks.foldl CommandLog.write .empty

/-- The commands the device still has. -/
def CommandLog.stored (log : CommandLog) : List (List UInt8) :=
  log.commands.rtake 10

/-- The commands it no longer has. -/
def CommandLog.evicted (log : CommandLog) : List (List UInt8) :=
  log.commands.rdrop 10

/-- What a reader sees. -/
def CommandLog.contents (log : CommandLog) : List UInt8 :=
  log.stored.flatten

/-- Every byte written, whether its command is closed or not. -/
def CommandLog.bytes (log : CommandLog) : List UInt8 :=
  log.commands.flatten ++ log.pending

/-- Whether a chunk closes the command. -/
def containsNewline (chunk : List UInt8) : Bool := decide (newline ∈ chunk)

/-- Whether a byte ends a line. -/
def isNewline (c : UInt8) : Bool := decide (c = newline)

/-- A chunk in which a newline can only be the last byte. -/
def Aligned (chunk : List UInt8) : Prop := newline ∉ chunk.dropLast

instance (chunk : List UInt8) : Decidable (Aligned chunk) :=
  inferInstanceAs (Decidable (_ ∉ _))

section
variable (log : CommandLog) {chunk : List UInt8}

theorem CommandLog.write_commit (h : newline ∈ chunk) :
    (log.write chunk).commands = log.commands ++ [log.pending ++ chunk] ∧
      (log.write chunk).pending = [] := by
  simp [write, h]

theorem CommandLog.write_append (h : newline ∉ chunk) :
    (log.write chunk).commands = log.commands ∧
      (log.write chunk).pending = log.pending ++ chunk := by
  simp [write, h]

theorem CommandLog.write_nil : log.write [] = log := by
  have hnil : newline ∉ ([] : List UInt8) := List.not_mem_nil
  obtain ⟨hc, hp⟩ := log.write_append hnil
  exact CommandLog.ext hc (by rw [hp, List.append_nil])

theorem CommandLog.write_write (h : newline ∉ chunk) (chunk' : List UInt8) :
    (log.write chunk).write chunk' = log.write (chunk ++ chunk') := by
  obtain ⟨hc, hp⟩ := log.write_append h
  by_cases h' : newline ∈ chunk'
  · have hboth : newline ∈ chunk ++ chunk' := by simp [h']
    obtain ⟨hc₁, hp₁⟩ := (log.write chunk).write_commit h'
    obtain ⟨hc₂, hp₂⟩ := log.write_commit hboth
    exact CommandLog.ext (by rw [hc₁, hc₂, hc, hp, List.append_assoc]) (by rw [hp₁, hp₂])
  · have hboth : newline ∉ chunk ++ chunk' := by simp [h, h']
    obtain ⟨hc₁, hp₁⟩ := (log.write chunk).write_append h'
    obtain ⟨hc₂, hp₂⟩ := log.write_append hboth
    exact CommandLog.ext (by rw [hc₁, hc₂, hc]) (by rw [hp₁, hp₂, hp, List.append_assoc])

/-- **A write** adds its bytes. -/
theorem CommandLog.write_bytes (chunk : List UInt8) :
    (log.write chunk).bytes = log.bytes ++ chunk := by
  by_cases h : newline ∈ chunk
  · obtain ⟨hc, hp⟩ := log.write_commit h
    simp [bytes, hc, hp]
  · obtain ⟨hc, hp⟩ := log.write_append h
    simp [bytes, hc, hp]

theorem CommandLog.foldl_write_bytes (chunks : List (List UInt8)) :
    (chunks.foldl CommandLog.write log).bytes = log.bytes ++ chunks.flatten := by
  induction chunks generalizing log with
  | nil => simp
  | cons chunk chunks ih =>
      rw [List.foldl_cons, ih, CommandLog.write_bytes, List.flatten_cons, List.append_assoc]

theorem CommandLog.foldl_write_pending_le (chunks : List (List UInt8)) :
    (chunks.foldl CommandLog.write log).pending.length
      ≤ log.pending.length + chunks.flatten.length := by
  induction chunks generalizing log with
  | nil => simp
  | cons chunk chunks ih =>
      have hrest := ih (log.write chunk)
      rw [List.foldl_cons, List.flatten_cons, List.length_append]
      by_cases h : newline ∈ chunk
      · rw [(log.write_commit h).2, List.length_nil] at hrest
        omega
      · rw [(log.write_append h).2, List.length_append] at hrest
        omega

/-- After a text with a newline no more is pending than the text. -/
theorem CommandLog.foldl_write_pending_of_mem {chunks : List (List UInt8)}
    (h : newline ∈ chunks.flatten) :
    (chunks.foldl CommandLog.write log).pending.length ≤ chunks.flatten.length := by
  induction chunks generalizing log with
  | nil => cases h
  | cons chunk chunks ih =>
      rw [List.foldl_cons, List.flatten_cons, List.length_append]
      by_cases hrest : newline ∈ chunks.flatten
      · have := ih (log.write chunk) hrest
        omega
      · have hchunk : newline ∈ chunk := by
          rw [List.flatten_cons, List.mem_append] at h
          exact h.resolve_right hrest
        have hle := CommandLog.foldl_write_pending_le (log.write chunk) chunks
        rw [(log.write_commit hchunk).2, List.length_nil] at hle
        omega

@[simp] theorem commandLog_nil : commandLog [] = .empty := rfl

theorem commandLog_concat (chunks : List (List UInt8)) (chunk : List UInt8) :
    commandLog (chunks ++ [chunk]) = (commandLog chunks).write chunk := by
  simp [commandLog]

theorem commandLog_append (xs ys : List (List UInt8)) :
    commandLog (xs ++ ys) = ys.foldl CommandLog.write (commandLog xs) := by
  simp [commandLog]

/-- The log is the greedy grouping of the chunks: a group closes at its first
chunk with a newline. -/
theorem commandLog_frames (chunks : List (List UInt8)) :
    (commandLog chunks).commands
        = (frames containsNewline chunks).closed.map List.flatten ∧
      (commandLog chunks).pending = (frames containsNewline chunks).rest.flatten := by
  induction chunks using List.reverseRecOn with
  | nil => exact ⟨rfl, rfl⟩
  | append_singleton chunks chunk ih =>
      obtain ⟨hc, hp⟩ := ih
      rw [commandLog_concat, frames_concat]
      by_cases h : newline ∈ chunk
      · rw [push_of_closes (by simpa [containsNewline] using h),
          (CommandLog.write_commit _ h).1, (CommandLog.write_commit _ h).2, hc, hp]
        simp
      · rw [push_of_not_closes (by simpa [containsNewline] using h),
          (CommandLog.write_append _ h).1, (CommandLog.write_append _ h).2, hc, hp]
        simp

theorem CommandLog.stored_length :
    log.stored.length = min 10 log.commands.length :=
  rtake_length 10 log.commands

theorem CommandLog.stored_pos :
    ∀ c ∈ log.stored, 0 < c.length := by
  intro c hc
  exact List.length_pos_of_mem (log.newline_mem c (List.mem_of_mem_drop hc))

theorem CommandLog.evicted_append_stored :
    log.evicted ++ log.stored = log.commands :=
  rdrop_append_rtake 10 log.commands

end

/-! ## Chunks and lines -/

theorem closes_isNewline_iff {line : List UInt8} :
    Closes isNewline line ↔ ∃ ys, line = ys ++ [newline] ∧ newline ∉ ys := by
  constructor
  · rintro ⟨ys, x, rfl, hys, hx⟩
    have hx' : x = newline := by simpa [isNewline] using hx
    refine ⟨ys, by rw [hx'], fun hm => ?_⟩
    simpa [isNewline] using hys _ hm
  · rintro ⟨ys, rfl, hys⟩
    refine ⟨ys, newline, rfl, fun y hy => ?_, by simp [isNewline]⟩
    simp only [isNewline, decide_eq_false_iff_not]
    rintro rfl
    exact hys hy

theorem Aligned.cases {chunk : List UInt8} (h : Aligned chunk) :
    newline ∉ chunk ∨ Closes isNewline chunk := by
  cases chunk using List.reverseRecOn with
  | nil => exact .inl (by simp)
  | append_singleton ys x =>
      have hys : newline ∉ ys := by simpa [Aligned] using h
      by_cases hx : x = newline
      · exact .inr (closes_isNewline_iff.mpr ⟨ys, by rw [hx], hys⟩)
      · exact .inl (by simp [hys, Ne.symm hx])

/-- What is not the last of a part is not the last of the whole. -/
theorem mem_dropLast_append {c : UInt8} {xs : List UInt8} (h : c ∈ xs.dropLast)
    (pre post : List UInt8) : c ∈ (pre ++ (xs ++ post)).dropLast := by
  have hxs : xs ≠ [] := by
    rintro rfl
    cases h
  rw [List.dropLast_append_of_ne_nil (by simp [hxs]), List.mem_append]
  right
  by_cases hpost : post = []
  · simpa [hpost] using h
  · rw [List.dropLast_append_of_ne_nil hpost, List.mem_append]
    exact .inl ((List.dropLast_sublist xs).subset h)

/-- Part of a line is aligned. -/
theorem aligned_of_mem_line {chunk : List UInt8} {group : List (List UInt8)}
    (hg : Closes isNewline group.flatten) (hc : chunk ∈ group) : Aligned chunk := by
  obtain ⟨ys, heq, hys⟩ := closes_isNewline_iff.mp hg
  obtain ⟨xs, zs, rfl⟩ := List.append_of_mem hc
  intro hm
  have hlast := mem_dropLast_append hm xs.flatten zs.flatten
  rw [List.flatten_append, List.flatten_cons] at heq
  rw [heq, List.dropLast_concat] at hlast
  exact hys hlast

/-- **The commands are the lines of the byte stream exactly when the chunks
are aligned**, and then the pending bytes are what follows the last line. -/
theorem commandLog_lines_iff (chunks : List (List UInt8)) :
    ((commandLog chunks).commands = (frames isNewline chunks.flatten).closed ∧
      (commandLog chunks).pending = (frames isNewline chunks.flatten).rest) ↔
    ∀ c ∈ chunks, Aligned c := by
  constructor
  · rintro ⟨hc, -⟩ chunk hchunk
    rw [(commandLog_frames chunks).1] at hc
    rw [← frames_flatten (p := containsNewline) chunks, List.mem_append] at hchunk
    rcases hchunk with hm | hm
    · obtain ⟨group, hgroup, hm⟩ := List.mem_flatten.mp hm
      refine aligned_of_mem_line ?_ hm
      apply frames_closed chunks.flatten
      rw [← hc]
      exact List.mem_map_of_mem hgroup
    · have hn := frames_rest chunks chunk hm
      simp only [containsNewline, decide_eq_false_iff_not] at hn
      exact fun h => hn ((List.dropLast_sublist chunk).subset h)
  · intro h
    induction chunks using List.reverseRecOn with
    | nil => exact ⟨rfl, rfl⟩
    | append_singleton chunks chunk ih =>
        obtain ⟨hc, hp⟩ := ih fun c hc => h c (by simp [hc])
        have hfr : frames isNewline (chunks ++ [chunk]).flatten
            = chunk.foldl (Frames.push isNewline) (frames isNewline chunks.flatten) := by
          simp [frames]
        rw [commandLog_concat, hfr]
        rcases (h chunk (by simp)).cases with hn | hn
        · rw [(CommandLog.write_append _ hn).1, (CommandLog.write_append _ hn).2, hc, hp,
            foldl_push_open fun y hy => ?_]
          · exact ⟨rfl, rfl⟩
          · simp only [isNewline, decide_eq_false_iff_not]
            rintro rfl
            exact hn hy
        · obtain ⟨ys, x, rfl, hys, hx⟩ := hn
          have hx' : x = newline := by simpa [isNewline] using hx
          have hm : newline ∈ ys ++ [x] := by simp [hx']
          rw [(CommandLog.write_commit _ hm).1, (CommandLog.write_commit _ hm).2, hc, hp,
            List.foldl_append, foldl_push_open hys, List.foldl_cons, push_of_closes hx]
          simp

end Aesd.Driver
