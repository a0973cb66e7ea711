import Aesd.Server.Progress

/-!
# Concurrent clients

Any number of clients, each sending one data packet in any chunks, in any
interleaving: the device's log gains the packets in the order in which the
threads got the mutex, and each client is sent the stored commands up to its
own (`clients_served`).
-/

namespace Aesd.Server

open Aesd.Lib Aesd.Driver

/-! ## Commits of data packets -/

section
variable {ι : Type} {packets : ι → Packet} {log : CommandLog}

theorem Packet.action_of_data {p : Packet} (h : ¬ p.IsSeek) : p.action = .write p.bytes :=
  commitAction_of_data h

theorem Packet.newline_mem (p : Packet) : newline ∈ p.bytes := by
  obtain ⟨ys, hys, -⟩ := closes_isNewline_iff.mp p.closes
  rw [Packet.bytes, hys]
  simp

/-- **Data packets** are committed one by one, each as one command. -/
theorem logAfter_data (hdata : ∀ i, ¬ (packets i).IsSeek) (hpend : log.pending = [])
    (order : List ι) :
    (logAfter packets log order).commands
        = log.commands ++ order.map (fun i => (packets i).bytes) ∧
      (logAfter packets log order).pending = [] := by
  induction order using List.reverseRecOn with
  | nil => simp [logAfter, hpend]
  | append_singleton order i ih =>
      obtain ⟨hc, hp⟩ := ih
      obtain ⟨hc', hp'⟩ :=
        (logAfter packets log order).write_commit (packets i).newline_mem
      rw [logAfter_concat, Packet.action_of_data (hdata i)]
      refine ⟨?_, hp'⟩
      show ((logAfter packets log order).write (packets i).bytes).commands = _
      rw [hc', hc, hp]
      simp

theorem reply_of_data {p : Packet} (h : ¬ p.IsSeek) (log : CommandLog)
    (fill : Nat → UInt8) : reply log fill p.action = (log.write p.bytes).contents := by
  rw [Packet.action_of_data h]
  simp [reply, commit, startPos, CommandLog.readFrom]

theorem Packet.allocated_le (p : Packet) : allocated p.chunks ≤ 2 * p.bytes.length := by
  have hall : ∀ chunks : List (List UInt8), (∀ c ∈ chunks, 0 < c.length) →
      allocated chunks ≤ 2 * chunks.flatten.length := by
    intro chunks
    induction chunks with
    | nil => simp [allocated]
    | cons c chunks ih =>
        intro h
        have hc := h c (by simp)
        have hrest := ih fun d hd => h d (by simp [hd])
        simp only [allocated, List.map_cons, List.sum_cons, List.flatten_cons,
          List.length_append] at hrest ⊢
        omega
  exact hall p.chunks fun c hc => (p.sizes c hc).1

end

section
variable {ι : Type} [DecidableEq ι] [Fintype ι]

/-- **No packet is lost, repeated or mixed between clients.** Take any
reachable device with no pending bytes, clients that send one data packet
each, and any run of the system. The threads got the mutex in the order
`order`, each at most once. When the mutex is free, the packets of these
threads are the commands committed since, in that order. A thread that gave
the mutex back sent its client the last ten commands up to its packet, and a
thread that did not get it sent nothing; when all threads are done, all got
it. And unless an allocation failed before, or a packet or ten commands are
too large to allocate or to count, the run can always go on to that end. -/
theorem clients_served (limit : Nat) (hl : limit ≤ 2 ^ 56) (fPos : Nat → Int)
    {ops : List Op} {rs : List Reply} {d : Device}
    (h : run Device.step (.init limit hl fPos) ops = some (rs, d))
    (hpend : d.driver.aesdDevice.writeBufferSize = 0)
    (packets : ι → Packet) (hdata : ∀ i, ¬ (packets i).IsSeek)
    {acts : List (Act ι)} {outs : List (Option (ι × Call))} {w : World ι}
    (hrun : run World.step (.init d.driver fun i => (packets i).chunks) acts
      = some (outs, w)) :
    let log := commandLog (accepted ops rs)
    let order := lockOrder outs
    let committed := fun is : List ι => log.commands ++ is.map fun i => (packets i).bytes
    order.Nodup ∧
    (w.mutex = none →
      w.driver.entries = (committed order).rtake 10 ∧
      w.driver.aesdDevice.writeBufferSize = 0 ∧
      ∃ a, Tracks w.driver a ∧ a.log.commands = committed order) ∧
    (∀ pre i post, order = pre ++ i :: post → w.mutex ≠ some i →
      w.outbox i = ((committed (pre ++ [i])).rtake 10).flatten) ∧
    (∀ i, i ∉ order → w.outbox i = []) ∧
    ((∀ i, (w.threads i).pc = .done) → w.mutex = none ∧ ∀ i, i ∈ order) ∧
    ((∀ r ∈ rs, r.ret ≠ -eNoMem) → (∀ i, (packets i).bytes.length ≤ limit) →
      10 * limit < 2 ^ 31 →
      ∃ acts' outs' w', run World.step w acts' = some (outs', w') ∧
        ∀ i, (w'.threads i).pc = .done) := by
  intro log order committed
  obtain ⟨b, hb, hbt, hlog⟩ := run_tracks h
  have hlog : b.state.log = log := hlog
  have hpend' : log.pending = [] := by
    have := hbt.state.size
    rw [hpend, hlog] at this
    exact List.eq_nil_of_length_eq_zero this.symm
  obtain ⟨a, ha⟩ := run_consistent packets hbt.state hrun
  have hafter := fun is => logAfter_data hdata hpend' is
  refine ⟨ha.nodup, ?_, ?_, fun i hi => (ha.waiting i hi).2, ha.all_done, ?_⟩
  · intro hm
    have hfree := ha.free hm
    rw [hlog] at hfree
    obtain ⟨hc, hp⟩ := hafter order
    refine ⟨?_, ?_, a, ha.tracks, by rw [hfree, hc]⟩
    · rw [ha.tracks.entries, hfree, CommandLog.stored, hc]
    · rw [ha.tracks.size, hfree, hp]
      rfl
  · intro pre i post hsplit hm
    obtain ⟨fill, hreply⟩ := (ha.ended pre i post hsplit hm).2
    rw [hreply, hlog, reply_of_data (hdata i)]
    obtain ⟨hc, hp⟩ := hafter pre
    rw [CommandLog.contents, CommandLog.stored,
      ((logAfter packets log pre).write_commit (packets i).newline_mem).1, hc, hp]
    simp [committed]
  · intro hmem hfit hlimit
    have hblimit := run_limit hb
    refine ha.finish ⟨fun i => ?_, fun _ _ => ?_, fun i pre _ => ?_,
      fun order w a ha => ?_⟩
    · have := (packets i).allocated_le
      have := hfit i
      omega
    · exact run_buffer hb hmem
    · rw [hlog, (hafter pre).2, hblimit]
      simpa using hfit i
    · obtain ⟨held, es, hr⟩ := ha.tracks.ring
      have := hr.contents_le
      rw [ha.tracks.limit, ha.limit, hblimit] at this
      omega

end

/-- Two clients, one packet each. -/
def twoLines : Bool → Packet
  | false => letterLine 97 (by decide)
  | true => letterLine 98 (by decide)

theorem twoLines_not_isSeek : ∀ i, ¬ (twoLines i).IsSeek
  | false => letterLine_not_isSeek (c := 97) (by decide)
  | true => letterLine_not_isSeek (c := 98) (by decide)

theorem clients_served_two_lines :
    ∃ acts outs w, run World.step (.init (aesdInitModule 4096 (by decide)) fun i =>
        (twoLines i).chunks) acts = some (outs, w) ∧
      (∀ i, (w.threads i).pc = .done) ∧ (∀ i, i ∈ lockOrder outs) ∧
      w.driver.entries = ((lockOrder outs).map fun i => (twoLines i).bytes).rtake 10 := by
  have hinit : run Device.step (.init 4096 (by decide) fun _ => 0) []
      = some ([], .init 4096 (by decide) fun _ => 0) := rfl
  obtain ⟨-, -, -, -, -, hfinish⟩ :=
    clients_served 4096 (by decide) (fun _ => 0) hinit rfl twoLines twoLines_not_isSeek
      (run_nil _)
  obtain ⟨acts, outs, w, hrun, hdone⟩ := hfinish (by simp)
    (fun i => by cases i <;> decide) (by decide)
  obtain ⟨-, hfree, -, -, hall, -⟩ :=
    clients_served 4096 (by decide) (fun _ => 0) hinit rfl twoLines twoLines_not_isSeek hrun
  obtain ⟨hm, hmem⟩ := hall hdone
  exact ⟨acts, outs, w, hrun, hdone, hmem, (hfree hm).1⟩

end Aesd.Server
