import Aesd.Server.Session

/-!
# Packets

A client's packets, each ending in its only newline and cut into chunks in
any way. A packet is a seek command or data. The thread's text is never reset,
and any text with `AESDCHAR_IOCSEEKTO` in it is taken for a command, so the
packets are each handled on their own only if all are seek commands with the same
numbers, or there is one, without that text in it (`packets_handled_iff`).
-/

namespace Aesd.Server

open Aesd.Lib Aesd.Driver

/-- One packet, as the chunks it is received in. -/
structure Packet where
  chunks : List (List UInt8)
  sizes : ∀ c ∈ chunks, 0 < c.length ∧ c.length ≤ recvBufLen - 1
  nulFree : 0 ∉ chunks.flatten
  closes : Closes isNewline chunks.flatten

/-- The bytes of a packet. -/
def Packet.bytes (p : Packet) : List UInt8 := p.chunks.flatten

/-- A packet with the text in it that marks a seek command for the thread. -/
def Packet.IsSeek (p : Packet) : Prop := aesdcharIocseektoCmdStr <:+: p.bytes

instance (p : Packet) : Decidable p.IsSeek :=
  inferInstanceAs (Decidable (_ <:+: _))

/-- `"AESDCHAR_IOCSEEKTO:X,Y\n"`. -/
def seekText (X Y : UInt32) : List UInt8 :=
  aesdcharIocseektoCmdStr ++ [colon] ++ decimal X.toNat ++ [comma] ++
    decimal Y.toNat ++ [newline]

/-- The text of a seek command: `AESDCHAR_IOCSEEKTO:`, two decimal numbers that
fit a `uint32_t` with a comma between them, and the newline. -/
def SeekCommand (bytes : List UInt8) (X Y : UInt32) : Prop :=
  ∃ ds es, bytes = aesdcharIocseektoCmdStr ++ [colon] ++ ds ++ [comma] ++ es ++ [newline] ∧
    IsNumber ds X ∧ IsNumber es Y

/-- A packet that is a seek command; the others are data. -/
def Packet.IsCommand (p : Packet) : Prop := ∃ X Y, SeekCommand p.bytes X Y

/-- The chunks of a sequence of packets. -/
def packetChunks (packets : List Packet) : List (List UInt8) :=
  (packets.map Packet.chunks).flatten

/-- The bytes of a sequence of packets. -/
def sent (packets : List Packet) : List UInt8 :=
  (packets.map Packet.bytes).flatten

/-- What a packet should lead to: a seek command is one `ioctl` with its numbers,
anything else is written once, as it is. -/
structure Handles (p : Packet) (acts : List Action) : Prop where
  seek : ∀ X Y, SeekCommand p.bytes X Y → acts = [.ioctl ⟨some X, some Y⟩]
  data : ¬ p.IsCommand → acts = [.write p.bytes]

/-- Each packet is handled after its last chunk, and nothing is done before. -/
def HandledEach : List Packet → List (List Action) → Prop
  | [], handled => handled = []
  | p :: packets, handled => ∃ acts rest,
      handled = List.replicate (p.chunks.length - 1) [] ++ acts :: rest ∧
        Handles p acts ∧ HandledEach packets rest

/-- The bytes written to the data file. -/
def written (handled : List (List Action)) : List UInt8 :=
  (handled.flatten.map fun | .write text => text | .ioctl _ => []).flatten

/-! ## Seek commands -/

theorem seekCommand_seekText (X Y : UInt32) : SeekCommand (seekText X Y) X Y :=
  ⟨_, _, rfl, isNumber_decimal X, isNumber_decimal Y⟩

/-- **A seek command is scanned as its numbers**, whatever follows it. -/
theorem SeekCommand.scanSeekto {bytes : List UInt8} {X Y : UInt32}
    (h : SeekCommand bytes X Y) (rest : List UInt8) :
    Server.scanSeekto (bytes ++ rest) = ⟨some X, some Y⟩ := by
  obtain ⟨ds, es, rfl, hX, hY⟩ := h
  have hnl : ∀ c ∈ (newline :: rest).head?, isDigit c = false := by
    rintro c ⟨⟩
    rfl
  have hcomma : ∀ c ∈ (comma :: (es ++ (newline :: rest))).head?, isDigit c = false := by
    rintro c ⟨⟩
    rfl
  have htext : aesdcharIocseektoCmdStr ++ [colon] ++ ds ++ [comma] ++ es ++ [newline] ++ rest
      = (aesdcharIocseektoCmdStr ++ [colon]) ++
        (ds ++ (comma :: (es ++ (newline :: rest)))) := by
    simp
  have hscan : sscanf aesdcharIocseektoFmtStr
      (aesdcharIocseektoCmdStr ++ [colon] ++ ds ++ [comma] ++ es ++ [newline] ++ rest)
      = [X, Y] := by
    rw [htext, aesdcharIocseektoFmtStr, sscanf_lit]
    simp only [sscanf, hX.scanU hcomma, if_true, hY.scanU hnl]
  unfold Server.scanSeekto
  rw [hscan]
  rfl

theorem scanSeekto_of_mismatch {text : List UInt8}
    (h : ¬ aesdcharIocseektoCmdStr <+: text) : scanSeekto text = ⟨none, none⟩ := by
  have hscan : sscanf aesdcharIocseektoFmtStr text = [] := by
    refine sscanf_lit_of_mismatch _ fun hp => h ?_
    exact (List.prefix_append _ _).trans hp
  simp [scanSeekto, hscan]

theorem SeekCommand.marked {bytes : List UInt8} {X Y : UInt32} (h : SeekCommand bytes X Y) :
    aesdcharIocseektoCmdStr <:+: bytes := by
  obtain ⟨ds, es, rfl, -, -⟩ := h
  simp only [List.append_assoc]
  exact (List.prefix_append _ _).isInfix

theorem Packet.IsCommand.isSeek {p : Packet} (h : p.IsCommand) : p.IsSeek := by
  obtain ⟨X, Y, hc⟩ := h
  exact hc.marked

/-- A text is a seek command with one pair of numbers only. -/
theorem SeekCommand.unique {bytes : List UInt8} {X Y X' Y' : UInt32}
    (h : SeekCommand bytes X Y) (h' : SeekCommand bytes X' Y') : X' = X ∧ Y' = Y := by
  have hscan := h.scanSeekto []
  rw [h'.scanSeekto] at hscan
  cases hscan
  exact ⟨rfl, rfl⟩

/-- The two runs of digits where a seek command has its numbers. -/
def commandDigits (bytes : List UInt8) : List UInt8 × List UInt8 :=
  let rest := bytes.drop (aesdcharIocseektoCmdStr ++ [colon]).length
  (rest.takeWhile isDigit, ((rest.dropWhile isDigit).drop 1).takeWhile isDigit)

theorem SeekCommand.digits {ds es : List UInt8} {X Y : UInt32} (hX : IsNumber ds X)
    (hY : IsNumber es Y) : commandDigits
      (aesdcharIocseektoCmdStr ++ [colon] ++ ds ++ [comma] ++ es ++ [newline]) = (ds, es) := by
  have hrest : (aesdcharIocseektoCmdStr ++ [colon] ++ ds ++ [comma] ++ es ++ [newline]).drop
      (aesdcharIocseektoCmdStr ++ [colon]).length = ds ++ (comma :: (es ++ [newline])) := by
    rw [show aesdcharIocseektoCmdStr ++ [colon] ++ ds ++ [comma] ++ es ++ [newline]
      = (aesdcharIocseektoCmdStr ++ [colon]) ++ (ds ++ (comma :: (es ++ [newline]))) by simp,
      List.drop_left]
  have hcomma : ∀ c ∈ (comma :: (es ++ [newline])).head?, isDigit c = false := by
    rintro c ⟨⟩
    rfl
  have hnl : ∀ c ∈ [newline].head?, isDigit c = false := by
    rintro c ⟨⟩
    rfl
  obtain ⟨htake, hdrop⟩ := takeWhile_digits hX.digits hcomma
  simp only [commandDigits, hrest, htake, hdrop, List.drop_one, List.tail_cons,
    (takeWhile_digits hY.digits hnl).1]

theorem seekCommand_iff (bytes : List UInt8) (X Y : UInt32) :
    SeekCommand bytes X Y ↔
      bytes = aesdcharIocseektoCmdStr ++ [colon] ++ (commandDigits bytes).1 ++ [comma] ++
        (commandDigits bytes).2 ++ [newline] ∧
      IsNumber (commandDigits bytes).1 X ∧ IsNumber (commandDigits bytes).2 Y := by
  constructor
  · rintro ⟨ds, es, rfl, hX, hY⟩
    rw [SeekCommand.digits hX hY]
    exact ⟨rfl, hX, hY⟩
  · rintro ⟨hbytes, hX, hY⟩
    exact ⟨_, _, hbytes, hX, hY⟩

theorem Packet.isCommand_iff (p : Packet) : p.IsCommand ↔
    p.bytes = aesdcharIocseektoCmdStr ++ [colon] ++ (commandDigits p.bytes).1 ++ [comma] ++
      (commandDigits p.bytes).2 ++ [newline] ∧
    IsDecimal (commandDigits p.bytes).1 ∧ IsDecimal (commandDigits p.bytes).2 := by
  simp only [Packet.IsCommand, seekCommand_iff, isDecimal_iff, exists_and_left,
    exists_and_right]

instance (p : Packet) : Decidable p.IsCommand := decidable_of_iff _ p.isCommand_iff.symm

theorem isSeek_of_seekText {p : Packet} {X Y : UInt32} (h : p.bytes = seekText X Y) :
    p.IsSeek := by
  rw [Packet.IsSeek, h]
  exact (seekCommand_seekText X Y).marked

/-- The commit of a data packet alone. -/
theorem commitAction_of_data {p : Packet} (h : ¬ p.IsSeek) :
    commitAction p.bytes = .write p.bytes := if_neg h

/-- The commit of a seek command alone. -/
theorem SeekCommand.commitAction {bytes : List UInt8} {X Y : UInt32}
    (h : SeekCommand bytes X Y) :
    Server.commitAction bytes = .ioctl ⟨some X, some Y⟩ := by
  have hscan := h.scanSeekto []
  rw [List.append_nil] at hscan
  rw [Server.commitAction, if_pos h.marked, hscan]

theorem commitAction_seekText (X Y : UInt32) :
    commitAction (seekText X Y) = .ioctl ⟨some X, some Y⟩ :=
  (seekCommand_seekText X Y).commitAction

theorem newline_notMem_cmdStr : newline ∉ aesdcharIocseektoCmdStr := by decide

/-- A data packet's text does not start with the command, whatever follows. -/
theorem not_prefix_of_data {p : Packet} (h : ¬ p.IsSeek) (rest : List UInt8) :
    ¬ aesdcharIocseektoCmdStr <+: p.bytes ++ rest := by
  intro hp
  rcases List.prefix_or_prefix_of_prefix hp (List.prefix_append p.bytes rest) with hp | hp
  · exact h hp.isInfix
  · -- the packet would be part of the command, newline and all
    obtain ⟨ys, hys, -⟩ := closes_isNewline_iff.mp p.closes
    refine newline_notMem_cmdStr (hp.subset ?_)
    rw [Packet.bytes, hys]
    simp

/-! ## The session of some packets -/

theorem Packet.newline_notMem {p : Packet} {xs ys : List UInt8} (h : p.bytes = xs ++ ys)
    (hys : ys ≠ []) : newline ∉ xs := by
  obtain ⟨zs, hzs, hn⟩ := closes_isNewline_iff.mp p.closes
  have hzs : p.bytes = zs ++ [newline] := hzs
  obtain ⟨ys, c, rfl⟩ : ∃ ys' c, ys = ys' ++ [c] :=
    ⟨_, _, (List.dropLast_append_getLast hys).symm⟩
  rw [h, ← List.append_assoc] at hzs
  obtain ⟨rfl, -⟩ := List.append_inj' hzs rfl
  exact fun hm => hn (List.mem_append_left _ hm)

/-- Only a packet's last chunk has a newline. -/
theorem Packet.split (p : Packet) : ∃ pre last, p.chunks = pre ++ [last] ∧
    (∀ c ∈ pre, newline ∉ chunkText c) ∧ newline ∈ chunkText last ∧
    (pre.map chunkText).flatten ++ chunkText last = p.bytes := by
  obtain ⟨ys, hys, hn⟩ := closes_isNewline_iff.mp p.closes
  have hnul : ∀ c ∈ p.chunks, chunkText c = c := fun c hc =>
    chunkText_of_nulFree fun h0 => p.nulFree (List.mem_flatten.mpr ⟨c, hc, h0⟩)
  have hne : p.chunks ≠ [] := by
    intro hnil
    rw [hnil] at hys
    simp at hys
  have hsplit := List.dropLast_append_getLast hne
  have hlast : 0 < (p.chunks.getLast hne).length :=
    (p.sizes _ (List.getLast_mem hne)).1
  generalize p.chunks.dropLast = pre at hsplit
  generalize p.chunks.getLast hne = last at hsplit hlast
  have hmem : ∀ c ∈ pre ++ [last], chunkText c = c := by rwa [hsplit]
  rw [← hsplit, List.flatten_concat] at hys
  -- the newline is the last byte of the last chunk
  obtain ⟨zs, z, rfl⟩ : ∃ zs z, last = zs ++ [z] :=
    ⟨_, _, (List.dropLast_append_getLast (List.ne_nil_of_length_pos hlast)).symm⟩
  rw [← List.append_assoc] at hys
  obtain ⟨rfl, hz⟩ := List.append_inj' hys rfl
  refine ⟨pre, zs ++ [z], hsplit.symm, ?_, ?_, ?_⟩
  · intro c hc hnl
    rw [hmem c (by simp [hc])] at hnl
    exact hn (List.mem_append_left _ (List.mem_flatten.mpr ⟨c, hc, hnl⟩))
  · rw [hmem _ (by simp), List.cons.inj hz |>.1]
    simp
  · rw [hmem _ (by simp), List.map_congr_left (g := id) fun c hc => hmem c (by simp [hc]),
      List.map_id, Packet.bytes, ← hsplit, List.flatten_concat]

theorem foldl_receive_quiet {pre : List (List UInt8)}
    (h : ∀ c ∈ pre, newline ∉ chunkText c) (s : Session) :
    pre.foldl Session.receive s = ⟨s.text ++ (pre.map chunkText).flatten,
      s.handled ++ List.replicate pre.length []⟩ := by
  induction pre generalizing s with
  | nil => simp
  | cons c pre ih =>
      rw [List.foldl_cons, ih (fun d hd => h d (by simp [hd])) _, Session.receive,
        if_neg (h c (by simp))]
      simp [List.replicate_succ]

/-- **A packet arrives**: one commit, of all the text so far. -/
theorem Packet.foldl_receive (p : Packet) (s : Session) :
    p.chunks.foldl Session.receive s = ⟨s.text ++ p.bytes,
      s.handled ++ (List.replicate (p.chunks.length - 1) [] ++
        [[commitAction (s.text ++ p.bytes)]])⟩ := by
  obtain ⟨pre, last, hsplit, hpre, hlast, hbytes⟩ := p.split
  rw [hsplit, List.foldl_append, foldl_receive_quiet hpre, List.foldl_cons,
    List.foldl_nil, Session.receive, if_pos hlast]
  simp only [List.append_assoc, hbytes, List.length_append, List.length_singleton,
    Nat.add_sub_cancel]

/-- What is done after each chunk of some packets, on top of `text`. -/
def handledFrom (text : List UInt8) : List Packet → List (List Action)
  | [] => []
  | p :: packets => List.replicate (p.chunks.length - 1) [] ++
      [commitAction (text ++ p.bytes)] :: handledFrom (text ++ p.bytes) packets

theorem foldl_receive_packets (packets : List Packet) (s : Session) :
    (packetChunks packets).foldl Session.receive s
      = ⟨s.text ++ sent packets, s.handled ++ handledFrom s.text packets⟩ := by
  induction packets generalizing s with
  | nil => simp [packetChunks, sent, handledFrom]
  | cons p packets ih =>
      have hchunks : packetChunks (p :: packets) = p.chunks ++ packetChunks packets := rfl
      have hsent : sent (p :: packets) = p.bytes ++ sent packets := rfl
      rw [hchunks, List.foldl_append, p.foldl_receive, ih]
      simp [hsent, handledFrom]

theorem session_packets (packets : List Packet) :
    session (packetChunks packets) = ⟨sent packets, handledFrom [] packets⟩ := by
  rw [session, foldl_receive_packets]
  simp

/-! ## When each packet is handled on its own -/

/-- **One packet**, on top of the text sent before it. -/
theorem handles_iff (p : Packet) (text : List UInt8) :
    Handles p [commitAction (text ++ p.bytes)] ↔
      (∀ X Y, SeekCommand p.bytes X Y → scanSeekto (text ++ p.bytes) = ⟨some X, some Y⟩) ∧
      (¬ p.IsCommand → text = [] ∧ ¬ p.IsSeek) := by
  have hseek : p.IsSeek → commitAction (text ++ p.bytes)
      = .ioctl (scanSeekto (text ++ p.bytes)) := by
    intro hp
    rw [commitAction, if_pos]
    exact hp.trans (List.suffix_append _ _).isInfix
  constructor
  · intro h
    constructor
    · intro X Y hc
      have hact := h.seek X Y hc
      rw [hseek hc.marked] at hact
      simpa using hact
    · intro hd
      have hact := h.data hd
      have hs : ¬ p.IsSeek := by
        intro hs
        rw [hseek hs] at hact
        cases hact
      refine ⟨?_, hs⟩
      unfold commitAction at hact
      split at hact
      · cases hact
      · simpa using hact
  · rintro ⟨hs, hd⟩
    refine ⟨fun X Y hc => ?_, fun hdata => ?_⟩
    · rw [hseek hc.marked, hs X Y hc]
    · obtain ⟨htext, hplain⟩ := hd hdata
      rw [htext, List.nil_append, commitAction_of_data hplain]

/-- Every packet is on its own: the numbers of a seek command are the ones read from
everything sent up to it, and data comes first and is not taken for a command. -/
def OnTheirOwn (text : List UInt8) (packets : List Packet) : Prop :=
  ∀ pre p post, packets = pre ++ p :: post →
    (∀ X Y, SeekCommand p.bytes X Y →
      scanSeekto (text ++ sent pre ++ p.bytes) = ⟨some X, some Y⟩) ∧
    (¬ p.IsCommand → text ++ sent pre = [] ∧ ¬ p.IsSeek)

theorem onTheirOwn_cons (text : List UInt8) (p : Packet) (packets : List Packet) :
    OnTheirOwn text (p :: packets) ↔
      Handles p [commitAction (text ++ p.bytes)] ∧
        OnTheirOwn (text ++ p.bytes) packets := by
  rw [handles_iff]
  constructor
  · intro h
    constructor
    · have := h [] p packets rfl
      simpa [sent] using this
    · intro pre q post hsplit
      have := h (p :: pre) q post (by rw [hsplit, List.cons_append])
      simpa [sent] using this
  · rintro ⟨h1, h2⟩ pre q post hsplit
    cases pre with
    | nil =>
        obtain ⟨rfl, rfl⟩ := List.cons.inj hsplit
        simpa [sent] using h1
    | cons r pre =>
        obtain ⟨rfl, rfl⟩ := List.cons.inj hsplit
        have := h2 pre q post rfl
        simpa [sent] using this

theorem handledEach_iff (packets : List Packet) (text : List UInt8) :
    HandledEach packets (handledFrom text packets) ↔ OnTheirOwn text packets := by
  induction packets generalizing text with
  | nil => simp [HandledEach, handledFrom, OnTheirOwn]
  | cons p packets ih =>
      rw [onTheirOwn_cons, ← ih]
      constructor
      · rintro ⟨acts, rest, heq, h1, h2⟩
        rw [handledFrom] at heq
        obtain ⟨rfl, rfl⟩ := List.cons.inj (List.append_cancel_left heq)
        exact ⟨h1, h2⟩
      · rintro ⟨h1, h2⟩
        exact ⟨_, _, rfl, h1, h2⟩

theorem written_append (xs ys : List (List Action)) :
    written (xs ++ ys) = written xs ++ written ys := by
  simp [written]

/-- **Nothing written is lost or repeated**, if each packet is on its own. -/
theorem OnTheirOwn.written {packets : List Packet} {text : List UInt8}
    (h : OnTheirOwn text packets) :
    written (handledFrom text packets) = sent (packets.filter fun p => ¬ p.IsCommand) := by
  induction packets generalizing text with
  | nil => rfl
  | cons p packets ih =>
      obtain ⟨hp, hrest⟩ := (onTheirOwn_cons text p packets).mp h
      have hquiet : ∀ n, Server.written (List.replicate n []) = [] := by
        intro n
        simp [Server.written]
      have hcons : ∀ acts rest, Server.written (acts :: rest)
          = Server.written [acts] ++ Server.written rest := by
        intro acts rest
        rw [← written_append]
        rfl
      rw [handledFrom, written_append, hquiet, List.nil_append, hcons, ih hrest]
      by_cases hs : p.IsCommand
      · obtain ⟨X, Y, hc⟩ := hs
        rw [hp.seek X Y hc, List.filter_cons_of_neg (by simpa using ⟨X, Y, hc⟩)]
        rfl
      · rw [hp.data hs, List.filter_cons_of_pos (by simpa using hs)]
        simp [Server.written, sent]

theorem Packet.bytes_ne_nil (p : Packet) : p.bytes ≠ [] := by
  obtain ⟨ys, hys, -⟩ := closes_isNewline_iff.mp p.closes
  rw [Packet.bytes, hys]
  simp

section
variable {p : Packet} {rest : List Packet}

/-- What follows a seek command is scanned as that command. -/
theorem OnTheirOwn.commands {X Y : UInt32} (h : OnTheirOwn [] (p :: rest))
    (hp : SeekCommand p.bytes X Y) : ∀ q ∈ rest, SeekCommand q.bytes X Y := by
  intro q hq
  obtain ⟨pre, post, rfl⟩ := List.append_of_mem hq
  obtain ⟨hs, hd⟩ := h (p :: pre) q post rfl
  by_cases hc : q.IsCommand
  · obtain ⟨X', Y', hc⟩ := hc
    have hscan := hs X' Y' hc
    have htext : [] ++ sent (p :: pre) ++ q.bytes = p.bytes ++ (sent pre ++ q.bytes) := by
      simp [sent]
    rw [htext, hp.scanSeekto] at hscan
    cases hscan
    exact hc
  · have hnil := (hd hc).1
    simp [sent, p.bytes_ne_nil] at hnil

/-- Nothing follows data. -/
theorem OnTheirOwn.alone (h : OnTheirOwn [] (p :: rest)) (hp : ¬ p.IsCommand) :
    rest = [] ∧ ¬ p.IsSeek := by
  have hplain := ((h [] p rest rfl).2 hp).2
  refine ⟨List.eq_nil_iff_forall_not_mem.mpr fun q hq => ?_, hplain⟩
  obtain ⟨pre, post, rfl⟩ := List.append_of_mem hq
  obtain ⟨hs, hd⟩ := h (p :: pre) q post rfl
  by_cases hc : q.IsCommand
  · obtain ⟨X, Y, hc⟩ := hc
    have hscan := hs X Y hc
    have htext : [] ++ sent (p :: pre) ++ q.bytes = p.bytes ++ (sent pre ++ q.bytes) := by
      simp [sent]
    rw [htext, scanSeekto_of_mismatch (not_prefix_of_data hplain _)] at hscan
    cases hscan
  · have hnil := (hd hc).1
    simp [sent, p.bytes_ne_nil] at hnil

end

/-- **Packets are on their own exactly if** all are seek commands with the same
numbers, or there is one, not marked as a command. -/
theorem onTheirOwn_iff (packets : List Packet) :
    OnTheirOwn [] packets ↔
      (∃ X Y, ∀ p ∈ packets, SeekCommand p.bytes X Y) ∨
        ∃ p, packets = [p] ∧ ¬ p.IsSeek := by
  constructor
  · intro h
    cases packets with
    | nil => exact .inl ⟨0, 0, fun p hp => (by cases hp)⟩
    | cons p rest =>
        by_cases hc : p.IsCommand
        · obtain ⟨X, Y, hc⟩ := hc
          refine .inl ⟨X, Y, fun q hq => ?_⟩
          rcases List.mem_cons.mp hq with rfl | hq
          · exact hc
          · exact h.commands hc q hq
        · obtain ⟨rfl, hplain⟩ := h.alone hc
          exact .inr ⟨p, rfl, hplain⟩
  · rintro (⟨X, Y, hall⟩ | ⟨q, rfl, hplain⟩) pre p post hsplit
    · have hp := hall p (by simp [hsplit])
      refine ⟨fun X' Y' hc => ?_, fun hd => absurd ⟨X, Y, hp⟩ hd⟩
      obtain ⟨rfl, rfl⟩ := hp.unique hc
      cases pre with
      | nil =>
          have hscan := hp.scanSeekto []
          rwa [List.append_nil] at hscan
      | cons q pre =>
          have htext : [] ++ sent (q :: pre) ++ p.bytes
              = q.bytes ++ (sent pre ++ p.bytes) := by simp [sent]
          rw [htext, (hall q (by simp [hsplit])).scanSeekto]
    · obtain ⟨rfl, rfl, rfl⟩ : pre = [] ∧ p = q ∧ post = [] := by
        cases pre with
        | nil =>
            obtain ⟨rfl, rfl⟩ := List.cons.inj hsplit
            exact ⟨rfl, rfl, rfl⟩
        | cons r pre =>
            have hlen := congrArg List.length hsplit
            simp at hlen
      exact ⟨fun X Y hc => absurd hc.marked hplain, fun _ => ⟨rfl, hplain⟩⟩

/-! ## Runs that serve some packets -/

/-- The call succeeded with that result; `-1` from `getline` is the end of the
file. -/
def Succeeds : Call → Resp → Prop
  | .inetNtop, .nonNull => True
  | .recv len, .bytes chunk => 0 < chunk.length ∧ chunk.length ≤ len
  | .realloc _, .memory _ => True
  | .pthreadMutexLock, .int n => n = 0
  | .fopen, .stream _ => True
  | .fprintf _ text, .int n => n = text.length
  | .fileno _, .int fd => 0 ≤ fd
  | .ioctl _ _ _, .int n => 0 ≤ n
  | .getline _, .int n => n = -1
  | .getline _, .bytes line => line ≠ []
  | .send bytes, .int n => 0 < n ∧ n ≤ bytes.length
  | .fclose _, .int n => n = 0
  | .pthreadMutexUnlock, .int n => n = 0
  | _, _ => False

/-- The run of `resps` in which every call succeeds, the thread receives the
packets and is back at `recv`. -/
structure Serves (packets : List Packet) (resps : List Resp) (calls : List Call)
    (t : Thread) : Prop where
  run : run Thread.step .init resps = some (calls, t)
  succeeds : ∀ e ∈ calls.zip resps, Succeeds e.1 e.2
  received : chunksOf (calls.zip resps) = packetChunks packets
  waiting : t.pc = .recv

/-- Inputs that take the thread from `t` to `t'` with every call succeeding,
receiving `chunks` on the way. -/
def Gets (t t' : Thread) (chunks : List (List UInt8)) : Prop :=
  ∃ resps calls, run Thread.step t resps = some (calls, t') ∧
    (∀ e ∈ calls.zip resps, Succeeds e.1 e.2) ∧ chunksOf (calls.zip resps) = chunks

section
variable {t t' t'' : Thread} {chunks chunks' : List (List UInt8)} {chunk : List UInt8}

theorem Gets.refl (t : Thread) : Gets t t [] := ⟨[], [], rfl, by simp, rfl⟩

theorem Gets.cons (call : Call) (r : Resp) (t' : Thread)
    (hs : t.step r = some (call, t')) (hok : Succeeds call r) (h : Gets t' t'' chunks) :
    Gets t t'' ((chunkOf (call, r)).toList ++ chunks) := by
  obtain ⟨resps, calls, hrun, hall, rfl⟩ := h
  refine ⟨r :: resps, call :: calls, run_cons.mpr ⟨_, _, _, hs, hrun, rfl⟩, ?_, ?_⟩
  · intro e he
    rcases List.mem_cons.mp he with rfl | he
    · exact hok
    · exact hall e he
  · rw [List.zip_cons_cons]
    cases hc : chunkOf (call, r) <;> simp [chunksOf, hc]

theorem Gets.trans (h : Gets t t' chunks) (h' : Gets t' t'' chunks') :
    Gets t t'' (chunks ++ chunks') := by
  obtain ⟨resps, calls, hrun, hall, rfl⟩ := h
  obtain ⟨resps', calls', hrun', hall', rfl⟩ := h'
  have hzip : (calls ++ calls').zip (resps ++ resps')
      = calls.zip resps ++ calls'.zip resps' := List.zip_append (run_length hrun)
  refine ⟨resps ++ resps', calls ++ calls', run_append.mpr ⟨_, _, _, hrun, hrun', rfl⟩,
    ?_, ?_⟩
  · rw [hzip]
    intro e he
    rcases List.mem_append.mp he with he | he
    · exact hall e he
    · exact hall' e he
  · rw [hzip, chunksOf, List.filterMap_append]
    rfl

/-- The bytes of some chunks are fewer than the bytes counted for them. -/
theorem flatten_length_le_allocated (chunks : List (List UInt8)) :
    chunks.flatten.length ≤ allocated chunks := by
  induction chunks with
  | nil => simp
  | cons c chunks ih =>
      simp only [allocated, List.map_cons, List.sum_cons, List.flatten_cons,
        List.length_append] at ih ⊢
      omega

theorem Accumulated.received_defined (h : Accumulated t chunks)
    (hc : chunk.length ≤ recvBufLen - 1) (hlt : allocated (chunks ++ [chunk]) < 2 ^ 31) :
    ∃ t', t.received chunk = some t' := by
  obtain ⟨hstring, -⟩ := hasString_received h.pBuffer hc
  have hle := flatten_length_le_allocated chunks
  rw [allocated_concat] at hlt
  have hlen : addInt t.byteStringLen chunk.length = some (t.byteStringLen + chunk.length) :=
    addInt_eq_some.mpr ⟨rfl, by rw [h.len]; omega⟩
  have hsize : addInt t.mallocBufSize (chunk.length + 1)
      = some (t.mallocBufSize + (chunk.length + 1)) :=
    addInt_eq_some.mpr ⟨rfl, by rw [h.size]; omega⟩
  simp [Thread.received, hstring.strchr, hlen, hsize]

/-- A commit of an empty file, with nothing to send back. -/
theorem Accumulated.gets_commit (h : Accumulated t chunks) (hn : chunks ≠ [])
    (hpc : t.pc = .mutexLock) : ∃ t', Gets t t' [] ∧ t'.pc = .recv := by
  have h1 : Accumulated { t with pc := .fopen } chunks := h.of_eq rfl rfl rfl rfl
  obtain ⟨u, hu, -, -, hupc⟩ := h1.opened hn (some 0)
  -- from the end of the action on, the calls are the same for both
  have hend : ∀ v : Thread, v.pc = .getline →
      ∃ t', Gets v t' [] ∧ t'.pc = .recv := by
    intro v hv
    refine ⟨{ v with pc := .recv }, ?_, rfl⟩
    refine .cons _ _ _ (ThreadStep.endOfFile hv).step rfl ?_
    refine .cons _ (.int 0) _ (ThreadStep.fileClosed rfl).step rfl ?_
    exact .cons _ (.int 0) _ (ThreadStep.unlocked rfl).step rfl (.refl _)
  have hact : ∃ v, Gets u v [] ∧ v.pc = .getline := by
    refine ⟨{ u with pc := .getline }, ?_, rfl⟩
    cases ha : commitAction (session chunks).text with
    | write text =>
        rw [ha] at hupc
        exact .cons _ (.int text.length) _ (ThreadStep.printed hupc).step rfl (.refl _)
    | ioctl seekto =>
        rw [ha] at hupc
        have h3 : (0 : Int) ≤ 3 := by decide
        refine .cons _ (.int 3) _ (ThreadStep.number hupc).step h3 ?_
        exact .cons _ (.int 0) _ (ThreadStep.sought rfl).step (Int.le_refl 0) (.refl _)
  obtain ⟨v, huv, hv⟩ := hact
  obtain ⟨t', hvt, ht'⟩ := hend v hv
  refine ⟨t', ?_, ht'⟩
  refine .cons _ (.int 0) _ (ThreadStep.locked hpc).step rfl ?_
  exact .cons _ _ _ (ThreadStep.opened rfl hu).step trivial (huv.trans hvt)

theorem Accumulated.gets_chunk (h : Accumulated t chunks) (hpc : t.pc = .recv)
    (hc : 0 < chunk.length ∧ chunk.length ≤ recvBufLen - 1)
    (hlt : allocated (chunks ++ [chunk]) < 2 ^ 31) :
    ∃ t', Gets t t' [chunk] ∧ t'.pc = .recv := by
  obtain ⟨u, hu⟩ := h.received_defined hc.2 hlt
  obtain ⟨hrec, hupc⟩ := h.received hc.2 hu
  obtain ⟨v, hv, hacc, hvpc⟩ :=
    hrec.reallocated (decide (newline ∈ chunkText chunk)) fun _ => 0
  rw [← h.size] at hv
  have htwo : Gets t v [chunk] :=
    .cons _ _ _ (ThreadStep.received hpc hc hu).step hc
      (.cons _ _ _ (ThreadStep.reallocated hupc hv).step trivial (.refl _))
  by_cases hn : newline ∈ chunkText chunk
  · rw [decide_eq_true hn, if_pos rfl] at hvpc
    obtain ⟨t', hvt, ht'⟩ := hacc.gets_commit (by simp) hvpc
    exact ⟨t', htwo.trans hvt, ht'⟩
  · rw [decide_eq_false hn, if_neg (by simp)] at hvpc
    exact ⟨v, htwo, hvpc⟩

/-- **Any chunks that the counters have room for can be received.** -/
theorem gets_chunks (hsizes : ∀ c ∈ chunks, 0 < c.length ∧ c.length ≤ recvBufLen - 1)
    (hlt : allocated chunks < 2 ^ 31) :
    ∃ t, Gets .init t chunks ∧ t.pc = .recv := by
  induction chunks using List.reverseRecOn with
  | nil =>
      exact ⟨{ Thread.init with pc := .recv },
        .cons .inetNtop .nonNull _ rfl trivial (.refl _), rfl⟩
  | append_singleton chunks chunk ih =>
      have hle : allocated chunks < 2 ^ 31 := by
        rw [allocated_concat] at hlt
        omega
      obtain ⟨t, hget, hpc⟩ := ih (fun c hc => hsizes c (by simp [hc])) hle
      obtain ⟨resps, calls, hrun, hall, hchunks⟩ := hget
      have hf := (run_session hrun).1
      unfold Follows at hf
      rw [hpc, hchunks] at hf
      obtain ⟨t', hget', hpc'⟩ := hf.gets_chunk hpc (hsizes chunk (by simp)) hlt
      exact ⟨t', .trans ⟨resps, calls, hrun, hall, hchunks⟩ hget', hpc'⟩

end

/-! ## The packets of a connection -/

/-- What a client may expect: its packets can be served, and whenever they
are, each is handled on its own, so that its data is written once, in order. -/
def ServedEach (packets : List Packet) : Prop :=
  (∃ resps calls t, Serves packets resps calls t) ∧
  ∀ resps calls t, Serves packets resps calls t →
    HandledEach packets (handledOf (calls.zip resps)) ∧
    written (handledOf (calls.zip resps)) = sent (packets.filter fun p => ¬ p.IsCommand)

section
variable {packets : List Packet} {resps : List Resp} {calls : List Call} {t : Thread}

theorem mem_packetChunks {c : List UInt8} (hc : c ∈ packetChunks packets) :
    0 < c.length ∧ c.length ≤ recvBufLen - 1 := by
  obtain ⟨_, hp, hcp⟩ := List.mem_flatten.mp hc
  obtain ⟨p, -, rfl⟩ := List.mem_map.mp hp
  exact p.sizes c hcp

/-- A run that serves some packets does what their session says, and its
counters did not overflow. -/
theorem Serves.handled (h : Serves packets resps calls t) :
    handledOf (calls.zip resps) = handledFrom [] packets ∧
      allocated (packetChunks packets) < 2 ^ 31 := by
  obtain ⟨hf, hh⟩ := run_session h.run
  unfold Follows at hf
  rw [h.waiting, h.received] at hf
  rw [h.waiting, h.received] at hh
  rw [hh (by simp), handledAt, if_neg (by simp [Pc.due]), session_packets]
  exact ⟨rfl, hf.size_lt⟩

theorem exists_serves (h : allocated (packetChunks packets) < 2 ^ 31) :
    ∃ resps calls t, Serves packets resps calls t := by
  obtain ⟨t, ⟨resps, calls, hrun, hok, hchunks⟩, hpc⟩ :=
    gets_chunks (fun c hc => mem_packetChunks hc) h
  exact ⟨resps, calls, t, hrun, hok, hchunks, hpc⟩

theorem servedEach_iff : ServedEach packets ↔
    allocated (packetChunks packets) < 2 ^ 31 ∧ OnTheirOwn [] packets := by
  constructor
  · rintro ⟨⟨resps, calls, t, hserves⟩, hall⟩
    obtain ⟨hh, hlt⟩ := hserves.handled
    have heach := (hall resps calls t hserves).1
    rw [hh, handledEach_iff] at heach
    exact ⟨hlt, heach⟩
  · rintro ⟨hlt, hown⟩
    refine ⟨exists_serves hlt, fun resps calls t hserves => ?_⟩
    rw [hserves.handled.1, handledEach_iff]
    exact ⟨hown, hown.written⟩

end

/-- **A connection's packets are each handled on their own exactly when** the
two counters can count them, and either all are seek commands with the same two
numbers, or there is one packet, without the text that marks a command. -/
theorem packets_handled_iff (packets : List Packet) :
    ServedEach packets ↔ allocated (packetChunks packets) < 2 ^ 31 ∧
      ((∃ X Y, ∀ p ∈ packets, SeekCommand p.bytes X Y) ∨
        ∃ p, packets = [p] ∧ ¬ p.IsSeek) := by
  rw [servedEach_iff, onTheirOwn_iff]

/-- A letter and a newline, in one chunk. -/
def letterLine (c : UInt8) (hc : 97 ≤ c) : Packet where
  chunks := [[c, newline]]
  sizes := by simp [recvBufLen]
  nulFree := by
    have h0 : (0 : UInt8) ≠ c := by
      rintro rfl
      exact absurd hc (by decide)
    have hn : (0 : UInt8) ≠ newline := by decide
    simp [h0, hn]
  closes := by
    refine closes_isNewline_iff.mpr ⟨[c], rfl, ?_⟩
    rw [List.mem_singleton]
    rintro rfl
    exact absurd hc (by decide)

theorem letterLine_not_isSeek {c : UInt8} (hc : 97 ≤ c) : ¬ (letterLine c hc).IsSeek := by
  intro h
  have := h.length_le
  exact absurd this (by simp [Packet.bytes, letterLine, aesdcharIocseektoCmdStr])

/-- The line `a`, then the line `b`, which is written with `a` before it. -/
theorem second_line_repeats_first :
    ¬ ServedEach [letterLine 97 (by decide), letterLine 98 (by decide)] := by
  rw [servedEach_iff]
  rintro ⟨-, hown⟩
  have hdata : ∀ {c : UInt8} (hc : 97 ≤ c), ¬ (letterLine c hc).IsCommand :=
    fun hc h => letterLine_not_isSeek hc h.isSeek
  exact absurd (hown.alone (hdata _)).1 (by simp)

end Aesd.Server
