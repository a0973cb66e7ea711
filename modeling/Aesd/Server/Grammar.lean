import Aesd.Server.Packets

/-!
# The seek-command grammar

The thread takes any text with `AESDCHAR_IOCSEEKTO` in it for a seek command,
scans it from its first byte, and does not look at how many numbers the scan
assigned. So a first packet is recognised exactly if it is a seek command or
has no such text in it (`recognised_iff`).
-/

namespace Aesd.Server

open Aesd.Lib Aesd.Driver

/-! ## What a first packet leads to -/

/-- The record of a packet that leads to `act`, after its last chunk. -/
def Packet.handledAs (p : Packet) (act : Action) : List (List Action) :=
  List.replicate (p.chunks.length - 1) [] ++ [[act]]

/-- As the first packet of a connection, `p` can be served, and every run that
has received it has done `act` after its last chunk and nothing else for it;
only before the next `recv` that may still be due. -/
structure LeadsTo (p : Packet) (act : Action) : Prop where
  served : ∃ resps calls t, Serves [p] resps calls t
  handled : ∀ resps calls t more, run Thread.step .init resps = some (calls, t) →
    chunksOf (calls.zip resps) = p.chunks ++ more →
    (handledOf (calls.zip resps)).take p.chunks.length = p.handledAs act ∨
      more = [] ∧ t.pc ≠ .recv ∧
        handledOf (calls.zip resps) = List.replicate p.chunks.length []

/-- What should become of a first packet: a seek command is one `ioctl` with
its numbers, anything else is written as it is, and no `ioctl` gets a field
that the scan did not assign. -/
structure Recognised (p : Packet) : Prop where
  seek : ∀ X Y, SeekCommand p.bytes X Y → LeadsTo p (.ioctl ⟨some X, some Y⟩)
  other : (∀ X Y, ¬ SeekCommand p.bytes X Y) → LeadsTo p (.write p.bytes)
  assigned : ∀ seekto, LeadsTo p (.ioctl seekto) →
    seekto.writeCmd.isSome ∧ seekto.writeCmdOffset.isSome

/-! ## The session of a first packet -/

/-- What was done after some chunks does not change later. -/
theorem session_handled_grows (chunks more : List (List UInt8)) :
    (session chunks).handled <+: (session (chunks ++ more)).handled := by
  induction more using List.reverseRecOn with
  | nil => rw [List.append_nil]
  | append_singleton more chunk ih =>
      rw [← List.append_assoc, session_concat]
      exact ih.trans (List.prefix_append _ _)

theorem session_handled_length (chunks : List (List UInt8)) :
    (session chunks).handled.length = chunks.length := by
  induction chunks using List.reverseRecOn with
  | nil => rfl
  | append_singleton chunks chunk ih =>
      rw [session_concat]
      simp [Session.receive, ih]

section
variable {p : Packet} {act : Action} {resps : List Resp} {calls : List Call} {t : Thread}
  {more : List (List UInt8)}

theorem Packet.session (p : Packet) :
    Server.session p.chunks = ⟨p.bytes, p.handledAs (commitAction p.bytes)⟩ := by
  have hone := p.foldl_receive ⟨[], []⟩
  simpa [Server.session, handledAs] using hone

/-- Whatever comes later, the record starts with that of the first packet. -/
theorem Packet.take_handled (p : Packet) (more : List (List UInt8)) :
    (Server.session (p.chunks ++ more)).handled.take p.chunks.length
      = p.handledAs (commitAction p.bytes) := by
  have hpre := List.prefix_iff_eq_take.mp (session_handled_grows p.chunks more)
  rw [session_handled_length, p.session] at hpre
  exact hpre.symm

/-- Before the last chunk nothing is done. -/
theorem Packet.dropLast_handled (p : Packet) :
    (Server.session p.chunks.dropLast).handled ++ [[]]
      = List.replicate p.chunks.length [] := by
  obtain ⟨pre, last, hsplit, hpre, -, -⟩ := p.split
  have hquiet := foldl_receive_quiet hpre ⟨[], []⟩
  rw [hsplit, List.dropLast_concat, Server.session, hquiet, List.length_append,
    List.length_singleton, List.replicate_succ']
  simp

theorem Packet.ne_nil (p : Packet) : p.chunks ≠ [] := by
  obtain ⟨pre, last, hsplit, -⟩ := p.split
  rw [hsplit]
  simp

/-- **A first packet leads to the commit of its bytes.** -/
theorem Packet.leadsTo (hlt : allocated p.chunks < 2 ^ 31) :
    LeadsTo p (commitAction p.bytes) := by
  constructor
  · refine exists_serves ?_
    simpa [packetChunks] using hlt
  · intro resps calls t more hrun hchunks
    obtain ⟨pc, hh, hpc⟩ := run_handled hrun
    rw [hchunks] at hh
    unfold handledAt at hh
    split at hh
    · rename_i hdue
      rcases List.eq_nil_or_concat' more with rfl | ⟨more, chunk, rfl⟩
      · -- the commit is due
        rw [List.append_nil, p.dropLast_handled] at hh
        refine .inr ⟨rfl, fun hrecv => ?_, hh⟩
        rw [hpc (by simp [hrecv]), hrecv] at hdue
        cases hdue
      · rw [← List.append_assoc, List.dropLast_concat] at hh
        have hle : p.chunks.length
            ≤ (Server.session (p.chunks ++ more)).handled.length := by
          rw [session_handled_length, List.length_append]
          omega
        left
        rw [hh, List.take_append_of_le_length hle, p.take_handled]
    · exact .inl (by rw [hh, p.take_handled])

theorem leadsTo_iff :
    LeadsTo p act ↔ allocated p.chunks < 2 ^ 31 ∧ commitAction p.bytes = act := by
  constructor
  · rintro ⟨⟨resps, calls, t, hserves⟩, hhandled⟩
    have hchunks : packetChunks [p] = p.chunks := by simp [packetChunks]
    obtain ⟨hh, hlt⟩ := hserves.handled
    rw [hchunks] at hlt
    refine ⟨hlt, ?_⟩
    have hrec := hserves.received
    rw [hchunks, ← List.append_nil p.chunks] at hrec
    rcases hhandled resps calls t [] hserves.run hrec with hact | ⟨-, hpc, -⟩
    · rcases (p.leadsTo hlt).handled resps calls t [] hserves.run hrec with h | ⟨-, hpc, -⟩
      · rw [hact] at h
        simpa [Packet.handledAs] using h.symm
      · exact absurd hserves.waiting hpc
    · exact absurd hserves.waiting hpc
  · rintro ⟨hlt, rfl⟩
    exact p.leadsTo hlt

/-! ## When a first packet is recognised -/

/-- A packet with the text in it leads to an `ioctl`, and so must be a seek
command. -/
theorem Recognised.seekCommand (h : Recognised p) (hseek : p.IsSeek) :
    ∃ X Y, SeekCommand p.bytes X Y := by
  by_contra hnone
  have hwrite := (leadsTo_iff.mp (h.other fun X Y hc => hnone ⟨X, Y, hc⟩)).2
  unfold commitAction at hwrite
  rw [if_pos (show aesdcharIocseektoCmdStr <:+: p.bytes from hseek)] at hwrite
  cases hwrite

end

/-- **A first packet is recognised exactly if** the two counters can count it
and, where the text of the command is anywhere in it, it is a seek command. -/
theorem recognised_iff (p : Packet) : Recognised p ↔
    allocated p.chunks < 2 ^ 31 ∧ (p.IsSeek → ∃ X Y, SeekCommand p.bytes X Y) := by
  constructor
  · intro h
    refine ⟨?_, h.seekCommand⟩
    by_cases hc : ∃ X Y, SeekCommand p.bytes X Y
    · obtain ⟨X, Y, hc⟩ := hc
      exact (leadsTo_iff.mp (h.seek X Y hc)).1
    · exact (leadsTo_iff.mp (h.other fun X Y h' => hc ⟨X, Y, h'⟩)).1
  · rintro ⟨hlt, hseek⟩
    refine ⟨fun X Y hc => leadsTo_iff.mpr ⟨hlt, hc.commitAction⟩, fun hnone => ?_, ?_⟩
    · have hdata : ¬ p.IsSeek := fun hs => by
        obtain ⟨X, Y, hc⟩ := hseek hs
        exact hnone X Y hc
      exact leadsTo_iff.mpr ⟨hlt, commitAction_of_data hdata⟩
    · intro seekto hleads
      have hact := (leadsTo_iff.mp hleads).2
      by_cases hs : p.IsSeek
      · obtain ⟨X, Y, hc⟩ := hseek hs
        rw [hc.commitAction] at hact
        cases hact
        exact ⟨rfl, rfl⟩
      · rw [commitAction_of_data hs] at hact
        cases hact

/-- `"AESDCHAR_IOCSEEKTO:1\n"`, in one chunk. -/
def oneNumber : Packet where
  chunks := [aesdcharIocseektoCmdStr ++ [colon, 49, newline]]
  sizes := by decide
  nulFree := by decide
  closes := closes_isNewline_iff.mpr
    ⟨aesdcharIocseektoCmdStr ++ [colon, 49], by decide, by decide⟩

/-- The command with its second number missing. -/
theorem oneNumber_not_recognised : ¬ Recognised oneNumber := by
  intro h
  obtain ⟨X, Y, ds, es, hbytes, -, -⟩ := h.seekCommand (by decide)
  have hcomma : comma ∈ oneNumber.bytes := by
    rw [hbytes]
    simp
  exact absurd hcomma (by decide)

end Aesd.Server
