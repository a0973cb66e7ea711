import Aesd.Driver.SeekTo
import Aesd.Server.Clients
import Aesd.Server.Grammar

/-!
# Seek commands, end to end

A seek command as the first packet of a connection: the thread reads its two
numbers back from the text, in whatever chunks it arrives, the driver turns
them into a position, and the reply is the contents from there
(`seek_end_to_end`). Text, ring walk and read loop each compute a position of
their own; these agree.
-/

namespace Aesd.Server

open Aesd.Lib Aesd.Driver

/-! ## The position -/

/-- **The position of a seek command** inside the contents: the sizes of the
commands before the one it names, and its offset. -/
theorem startPos_seek {log : CommandLog} {X Y : UInt32} (fill : Nat → UInt8)
    (hX : X.toNat < log.stored.length) (hY : Y.toNat < (log.stored[X.toNat]).length)
    (hlen : log.contents.length < 2 ^ 31) :
    startPos log fill (.ioctl ⟨some X, some Y⟩)
      = ((log.stored.take X.toNat).flatten.length + Y.toNat : Nat) := by
  have hten : log.stored.length ≤ 10 := by
    rw [log.stored_length]
    omega
  have hbyte : NamesByte log.stored ⟨X, Y⟩ := ⟨hX, hY⟩
  have hlt := hbyte.bytePos_lt
  have hlen' : log.stored.flatten.length < 2 ^ 31 := hlen
  show (ioctlResult log.stored 0 aesdcharIocseekto ⟨X, Y⟩ .quiet).2 = _
  rw [ioctlResult_of_namesByte hlen hten 0 hbyte, Int.zero_add, toI64_natCast (by omega)]
  rfl

/-! ## The text -/

theorem decimal_length_le (x : UInt32) : (decimal x.toNat).length ≤ 10 := by
  have hlt : x.toNat < 2 ^ 32 := x.toNat_lt
  rw [decimal, List.length_map, Nat.length_toDigits_le_iff (by decide) (by decide)]
  omega

theorem seekText_length_le (X Y : UInt32) : (seekText X Y).length ≤ 41 := by
  have hX := decimal_length_le X
  have hY := decimal_length_le Y
  have hcmd : aesdcharIocseektoCmdStr.length = 18 := rfl
  simp only [seekText, List.length_append, List.length_singleton, hcmd]
  omega

section
variable {X Y : UInt32} {p : Packet}

theorem Packet.action_of_seekText (h : p.bytes = seekText X Y) :
    p.action = .ioctl ⟨some X, some Y⟩ := by
  rw [Packet.action, h, commitAction_seekText]

theorem Packet.allocated_lt_of_seekText (h : p.bytes = seekText X Y) :
    allocated p.chunks < 2 ^ 31 := by
  have hle := p.allocated_le
  have htext := seekText_length_le X Y
  rw [h] at hle
  omega

/-- **A seek command as the first packet** is handled by one `ioctl` with its
numbers, after its last chunk, whatever the connection sends later. -/
theorem first_seek_handled (h : p.bytes = seekText X Y) {resps : List Resp}
    {calls : List Call} {t : Thread} {more : List (List UInt8)}
    (hrun : run Thread.step .init resps = some (calls, t)) (hpc : t.pc = .recv)
    (hchunks : chunksOf (calls.zip resps) = p.chunks ++ more) :
    (handledOf (calls.zip resps)).take p.chunks.length
      = List.replicate (p.chunks.length - 1) [] ++ [[.ioctl ⟨some X, some Y⟩]] := by
  have hleads := p.leadsTo (Packet.allocated_lt_of_seekText h)
  rw [h, commitAction_seekText] at hleads
  rcases hleads.handled resps calls t more hrun hchunks with hact | ⟨-, hne, -⟩
  · exact hact
  · exact absurd hpc hne

end

/-! ## Seek commands in the system -/

section
variable {ι : Type} {packets : ι → Packet} {X Y : ι → UInt32} {a₀ a : LogState}
  {order : List ι} {w w' : World ι} {i : ι}

theorem logAfter_seek (h : ∀ i, (packets i).bytes = seekText (X i) (Y i))
    (log : CommandLog) (order : List ι) : logAfter packets log order = log := by
  induction order using List.reverseRecOn with
  | nil => rfl
  | append_singleton order i ih =>
      rw [logAfter_concat, ih, Packet.action_of_seekText (h i)]
      rfl

theorem Serving.out_of_seek {p : Packet} {X Y : UInt32} {log₀ log : CommandLog}
    {s : Stream} {delivered : List UInt8} (hp : p.bytes = seekText X Y)
    (h : Serving p log₀ log s delivered) :
    s.out = [] ∧ log = log₀ := by
  have hact := Packet.action_of_seekText hp
  cases h with
  | printing _ hwrite =>
      rw [hact] at hwrite
      cases hwrite
  | reading _ hlog hread =>
      rw [hact] at hlog
      exact ⟨hread.out, hlog⟩

theorem Consistent.log_of_seek (h : Consistent packets a₀ order w a)
    (htext : ∀ i, (packets i).bytes = seekText (X i) (Y i)) : a.log = a₀.log := by
  cases hm : w.mutex with
  | none => rw [h.free hm, logAfter_seek htext]
  | some i =>
      obtain ⟨pre, -, -, hins⟩ := h.inside i hm
      rw [logAfter_seek htext] at hins
      have hcommit : commit a₀.log (packets i).action = a₀.log := by
        rw [Packet.action_of_seekText (htext i)]
        rfl
      unfold Inside at hins
      cases hpc : (w.threads i).pc <;> rw [hpc] at hins
      case fopen => exact hins.1
      case fprintf => exact hins.2.1
      case fileno => exact hins.2.1
      case ioctl => exact hins.2.1
      case getline =>
        obtain ⟨s, -, hserving⟩ := hins
        exact (hserving.out_of_seek (htext i)).2
      case send =>
        rw [hcommit] at hins
        exact hins.2.2.1
      case fclose =>
        rw [hcommit] at hins
        exact hins.1
      case mutexUnlock =>
        rw [hcommit] at hins
        exact hins.1
      all_goals exact hins.elim

variable [DecidableEq ι]

theorem Consistent.driver_of_seek (h : Consistent packets a₀ order w a)
    (htext : ∀ i, (packets i).bytes = seekText (X i) (Y i)) {act : Act ι}
    {out : Option (ι × Call)} (hs : w.step act = some (out, w')) :
    w'.driver = w.driver := by
  cases act with
  | call i n fill =>
      obtain ⟨call, r, w₁, t, -, hans, -, rfl⟩ := World.step_call hs
      exact (World.answer_frame hans).2.1
  | flush i n env =>
      simp only [World.step, Option.bind_eq_bind, Option.bind_eq_some_iff] at hs
      obtain ⟨file, hfile, s, hstream, hs⟩ := hs
      split at hs
      case isFalse => cases hs
      rename_i hcond
      -- there is nothing to write
      exfalso
      obtain ⟨pre, -, -, hins⟩ := h.inside i (h.holder (by rw [hcond.1]; rfl))
      unfold Inside at hins
      rw [hcond.1] at hins
      obtain ⟨s', hopen, hserving⟩ := hins
      obtain rfl := Opened.eq ⟨file, hfile, hstream⟩ hopen
      have hn := hcond.2
      rw [(hserving.out_of_seek (htext i)).1] at hn
      simp only [List.length_nil] at hn
      omega
  | refill i count =>
      simp only [World.step, Option.bind_eq_bind, Option.bind_eq_some_iff] at hs
      obtain ⟨file, hfile, s, hstream, hs⟩ := hs
      split at hs
      case isFalse => cases hs
      simp only [Option.bind_eq_some_iff] at hs
      obtain ⟨_, -, hs⟩ := hs
      cases hs
      rfl

theorem run_driver_of_seek {driver : DriverState} (h : Tracks driver a₀)
    (htext : ∀ i, (packets i).bytes = seekText (X i) (Y i)) {acts : List (Act ι)}
    {outs : List (Option (ι × Call))}
    (hrun : run World.step (.init driver fun i => (packets i).chunks) acts
      = some (outs, w)) : w.driver = driver := by
  refine run_history (P := fun _ _ w => w.driver = driver) rfl ?_ hrun
  intro acts outs w act out w' hpre ih hs
  obtain ⟨a, ha⟩ := run_consistent packets h hpre
  rw [ha.driver_of_seek htext hs, ih]

/-- **A seek command, end to end.** The thread of a connection that starts
with `"AESDCHAR_IOCSEEKTO:X,Y\n"`, in any chunks, handles it by one `ioctl`
with `X` and `Y` and writes nothing. And take any reachable device with fewer
than `2 ^ 31` bytes stored, clients that each name a stored command and an
offset inside it, and any run of the system: the driver is as before, a client
whose thread gave the mutex back was sent the contents from that byte of that
command on, and the run can always go on to the end. -/
theorem seek_end_to_end [Fintype ι] (packets : ι → Packet) (X Y : ι → UInt32)
    (htext : ∀ i, (packets i).bytes = seekText (X i) (Y i)) :
    (∀ i, (∃ resps calls t, Serves [packets i] resps calls t) ∧
      ∀ resps calls t more, run Thread.step .init resps = some (calls, t) →
        t.pc = .recv → chunksOf (calls.zip resps) = (packets i).chunks ++ more →
        (handledOf (calls.zip resps)).take (packets i).chunks.length
          = List.replicate ((packets i).chunks.length - 1) [] ++
            [[.ioctl ⟨some (X i), some (Y i)⟩]]) ∧
    ∀ (limit : Nat) (hl : limit ≤ 2 ^ 56) (fPos : Nat → Int) (d : Device),
      Reachable Device.step (.init limit hl fPos) d →
      let stored := d.driver.entries
      stored.flatten.length < 2 ^ 31 →
      (∀ i, ∃ h : (X i).toNat < stored.length,
        (Y i).toNat < (stored[(X i).toNat]).length) →
      ∀ acts outs w, run World.step (.init d.driver fun i => (packets i).chunks) acts
          = some (outs, w) →
        w.driver = d.driver ∧
        (∀ i, i ∈ lockOrder outs → w.mutex ≠ some i → w.outbox i
          = stored.flatten.drop
            ((stored.take (X i).toNat).flatten.length + (Y i).toNat)) ∧
        (∀ i, i ∉ lockOrder outs → w.outbox i = []) ∧
        ((∀ i, (w.threads i).pc = .done) → w.mutex = none ∧ ∀ i, i ∈ lockOrder outs) ∧
        ∃ acts' outs' w', run World.step w acts' = some (outs', w') ∧
          ∀ i, (w'.threads i).pc = .done := by
  constructor
  · intro i
    have hlt := Packet.allocated_lt_of_seekText (htext i)
    have hchunks : packetChunks [packets i] = (packets i).chunks := by
      simp [packetChunks]
    exact ⟨exists_serves (by rwa [hchunks]), fun resps calls t more hrun hpc hch =>
      first_seek_handled (htext i) hrun hpc hch⟩
  · intro limit hl fPos d hd stored hlen hin acts outs w hrun
    obtain ⟨b, hb⟩ := reachable_tracks hd
    have hstored : stored = b.state.log.stored := hb.state.entries
    obtain ⟨a, ha⟩ := run_consistent packets hb.state hrun
    rw [hstored] at hlen hin ⊢
    refine ⟨run_driver_of_seek hb.state htext hrun, ?_, fun i hi => (ha.waiting i hi).2,
      ha.all_done, ?_⟩
    · intro i hi hm
      obtain ⟨pre, post, hsplit⟩ := List.append_of_mem hi
      obtain ⟨hX, hY⟩ := hin i
      obtain ⟨fill, hreply⟩ := (ha.ended pre i post hsplit hm).2
      rw [hreply, logAfter_seek htext,
        Packet.action_of_seekText (htext i), reply, startPos_seek fill hX hY hlen,
        CommandLog.readFrom, if_neg (by omega), Int.toNat_natCast]
      rfl
    · have hsmall : ∀ order w a, Consistent packets b.state order w a →
          a.log.contents.length < 2 ^ 31 := by
        intro order w a ha
        rw [ha.log_of_seek htext]
        exact hlen
      have hseek : ∀ i, (packets i).IsSeek := fun i => isSeek_of_seekText (htext i)
      exact ha.finish ⟨fun i => Packet.allocated_lt_of_seekText (htext i),
        fun i hdata => absurd (hseek i) hdata, fun i _ hdata => absurd (hseek i) hdata,
        hsmall⟩

end

/-- `"AESDCHAR_IOCSEEKTO:0,1\n"` in two chunks. -/
def seekZeroOne : Packet where
  chunks := [(seekText 0 1).take 7, (seekText 0 1).drop 7]
  sizes := by decide
  nulFree := by decide
  closes := closes_isNewline_iff.mpr ⟨(seekText 0 1).dropLast, by decide, by decide⟩

theorem seek_end_to_end_second_byte :
    ∃ d acts outs w, Reachable Device.step (.init 4096 (by decide) fun _ => 0) d ∧
      d.driver.entries = [[97, 98, 10]] ∧
      run World.step (.init d.driver fun _ : Unit => seekZeroOne.chunks) acts
        = some (outs, w) ∧
      (w.threads ()).pc = .done ∧ w.outbox () = [98, 10] := by
  have h : (run Device.step (.init 4096 (by decide) fun _ => 0)
      [.write (.quiet 0 [97, 98, 10] (by decide))]).map (fun p => p.2.driver.entries)
      = some [[97, 98, 10]] := by decide
  obtain ⟨⟨rs, d⟩, hr, hentries⟩ := Option.map_eq_some_iff.mp h
  have hentries : d.driver.entries = [[97, 98, 10]] := hentries
  have hd : Reachable Device.step (.init 4096 (by decide) fun _ => 0) d := ⟨_, rs, hr⟩
  have hmain := (seek_end_to_end (fun _ : Unit => seekZeroOne) (fun _ => 0) (fun _ => 1)
    fun _ => by decide).2 4096 (by decide) (fun _ => 0) d hd
  rw [hentries] at hmain
  have hin : ∀ _ : Unit, ∃ h : (0 : UInt32).toNat < [[(97 : UInt8), 98, 10]].length,
      (1 : UInt32).toNat < ([[(97 : UInt8), 98, 10]][(0 : UInt32).toNat]).length :=
    fun _ => ⟨by decide, by decide⟩
  obtain ⟨-, -, -, -, acts, outs, w, hrun, hdone⟩ := hmain (by decide) hin [] [] _ (run_nil _)
  obtain ⟨-, hreply, -, hall, -⟩ := hmain (by decide) hin acts outs w hrun
  obtain ⟨hm, hmem⟩ := hall hdone
  refine ⟨d, acts, outs, w, hd, hentries, hrun, hdone (), ?_⟩
  rw [hreply () (hmem ()) (by simp [hm])]
  decide

end Aesd.Server
