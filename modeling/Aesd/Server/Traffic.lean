import Aesd.Server.Serial
import Aesd.Server.Interleaving

/-!
# Any traffic

Connections that send anything, in any number of chunks, in any interleaving of
threads whose calls succeed: what the system does is what it does with whole
commits, in the order in which the threads gave the mutex back
(`run_serializes`). A thread with the mutex is in
the middle of one commit (`Within`); the others have done theirs or not begun.
-/

namespace Aesd.Server

open Aesd.Lib Aesd.Driver

/-! ## In the middle of a commit -/

/-- Whether the thread has a text to commit. -/
def Pc.commitDue : Pc → Bool
  | .realloc bContainsNewline _ => bContainsNewline
  | .mutexLock => true
  | pc => pc.locked

/-- The stream of a commit that found the log at `log₀`: a part of the text is
still to be written, or all of it is, cut somehow, and the reply is read. -/
inductive Committing (act : Action) (log₀ log : CommandLog) (s : Stream)
    (delivered : List UInt8) : Prop where
  | printing (cut : List (List UInt8)) : cut.flatten ++ s.out = act.text → [] ∉ cut →
      s.out ≠ [] → log = cut.foldl CommandLog.write log₀ →
      (∀ fill, startPos log₀ fill act = 0) → s.fPos = 0 → s.inp = [] → s.eof = false →
      delivered = [] → Committing act log₀ log s delivered
  | reading (cut : List (List UInt8)) (fill : Nat → UInt8) : act.CutInto cut →
      log = cut.foldl CommandLog.write log₀ →
      Reading log (startPos log₀ fill act) s delivered → Committing act log₀ log s delivered

/-- A commit that is done: the client was sent the reply after what it was sent
before. -/
def Committed (act : Action) (log₀ log : CommandLog) (prior outbox : List UInt8) : Prop :=
  ∃ cut fill, act.CutInto cut ∧ log = cut.foldl CommandLog.write log₀ ∧
    outbox = prior ++ log.readFrom (startPos log₀ fill act)

/-- The thread with the mutex: it got it with the log at `log₀` and its client
was sent `prior`; now they are `log` and `outbox`. -/
def Within (act : Action) (log₀ log : CommandLog) (t : Thread)
    (streams : Nat → Option Stream) (prior outbox : List UInt8) : Prop :=
  match t.pc with
  | .fopen => log = log₀ ∧ outbox = prior
  | .fprintf text => act = .write text ∧ log = log₀ ∧ outbox = prior ∧
      Opened t streams .fresh
  | .fileno seekto => act = .ioctl seekto ∧ log = log₀ ∧ outbox = prior ∧
      Opened t streams .fresh
  | .ioctl fd seekto => act = .ioctl seekto ∧ log = log₀ ∧ outbox = prior ∧
      ∃ file : Nat, fd = file ∧ t.phSocketDataFile = some file ∧
        streams file = some .fresh
  | .getline => ∃ s back, Opened t streams s ∧ outbox = prior ++ back ∧
      Committing act log₀ log s (back ++ s.inp)
  | .send line total => total < line.length ∧ line.length ≤ log.contents.length ∧
      ∃ s back, Opened t streams s ∧ s.out = [] ∧ outbox = prior ++ back ∧
        Committing act log₀ log s (back ++ line.drop total ++ s.inp)
  | .fclose => Committed act log₀ log prior outbox ∧ ∃ s, Opened t streams s ∧ s.out = []
  | .mutexUnlock => Committed act log₀ log prior outbox
  | _ => False

section
variable {act : Action} {log₀ log : CommandLog} {s s' : Stream} {delivered : List UInt8}

theorem startPos_of_cut (cut : List (List UInt8)) (fill : Nat → UInt8)
    (hcut : act.CutInto cut) :
    (cut.foldl CommandLog.write log₀).stored ≠ [] ∨ startPos log₀ fill act = 0 := by
  cases act with
  | write text => exact .inr rfl
  | ioctl seekto =>
      obtain ⟨hflat, hne⟩ := hcut
      cases cut with
      | nil => exact startPos_of_empty log₀ fill (.ioctl seekto)
      | cons c cut =>
          have hc : c = [] := (List.append_eq_nil_iff.mp hflat).1
          exact absurd (hc ▸ List.mem_cons_self) hne

/-- Reading goes on whatever else the stream and the record say. -/
theorem Committing.of_eq {delivered' : List UInt8} (h : Committing act log₀ log s delivered)
    (hout : s.out = []) (ho : s'.out = s.out) (hp : s'.fPos = s.fPos) (he : s'.eof = s.eof)
    (hd : delivered' = delivered) : Committing act log₀ log s' delivered' := by
  cases h with
  | printing _ _ _ hne => exact absurd hout hne
  | reading cut fill hcut hlog hread =>
      exact .reading cut fill hcut hlog (hread.of_eq ho hp he hd)

theorem committing_printed (text : List UInt8) :
    Committing (.write text) log log { Stream.fresh with out := Stream.fresh.out ++ text } [] := by
  by_cases htext : text = []
  · refine .reading [] (fun _ => 0) ⟨?_, List.not_mem_nil⟩ rfl
      ⟨?_, rfl, List.nil_prefix, ?_⟩
    · rw [htext]
      rfl
    · rw [htext]
      rfl
    · intro he
      cases he
  · exact .printing [] rfl List.not_mem_nil htext rfl (fun _ => rfl) rfl rfl rfl rfl

theorem committing_sought (seekto : Seekto) (fill : Nat → UInt8) :
    Committing (.ioctl seekto) log log
      { Stream.fresh with fPos := startPos log fill (.ioctl seekto) } [] := by
  refine .reading [] fill ⟨rfl, List.not_mem_nil⟩ rfl ⟨rfl, ?_, List.nil_prefix, ?_⟩
  · simp
  · intro he
    cases he

/-- **A write of the stream** is one more piece of the text. -/
theorem Committing.flush {n : Nat} (h : Committing act log₀ log s delivered) (hn : 0 < n)
    (hle : n ≤ s.out.length) :
    Committing act log₀ (log.write (s.out.take n)) { s with out := s.out.drop n }
      delivered := by
  cases h with
  | reading cut fill hcut hlog hread =>
      rw [hread.out] at hle
      simp only [List.length_nil] at hle
      omega
  | printing cut htext hpieces hne hlog hstart hpos hinp heof hdel =>
      have htake : s.out.take n ≠ [] := by
        intro hnil
        have := congrArg List.length hnil
        rw [List.length_take, List.length_nil] at this
        omega
      have hpieces' : [] ∉ cut ++ [s.out.take n] := by
        intro hmem
        rcases List.mem_append.mp hmem with hmem | hmem
        · exact hpieces hmem
        · exact htake (List.mem_singleton.mp hmem).symm
      have hlog' : log.write (s.out.take n)
          = (cut ++ [s.out.take n]).foldl CommandLog.write log₀ := by
        rw [List.foldl_append, ← hlog]
        rfl
      have htext' : (cut ++ [s.out.take n]).flatten ++ s.out.drop n = act.text := by
        rw [List.flatten_append, List.flatten_singleton, List.append_assoc,
          List.take_append_drop, htext]
      by_cases hrest : s.out.drop n = []
      · -- that was the last piece: the reply starts
        rw [hrest, List.append_nil] at htext'
        refine .reading _ (fun _ => 0) ⟨htext', hpieces'⟩ hlog' ⟨hrest, ?_, ?_, ?_⟩
        · rw [hstart, hdel]
          exact hpos
        · rw [hdel]
          exact List.nil_prefix
        · intro he
          have he : s.eof = true := he
          rw [heof] at he
          cases he
      · exact .printing _ htext' hpieces' hrest hlog' hstart hpos hinp heof hdel

/-- **A read of the stream** delivers what comes next. -/
theorem Committing.refill {count : Nat} (h : Committing act log₀ log s delivered)
    (hout : s.out = []) (hlen : log.contents.length < 2 ^ 60) (hcount : 0 < count) :
    ∃ next, readResult log.stored s.fPos count .quiet
        = some ((next.length : Int), next, s.fPos + next.length) ∧
      Committing act log₀ log { s with
        fPos := s.fPos + next.length
        inp := s.inp ++ next
        eof := decide (next = []) } (delivered ++ next) := by
  cases h with
  | printing _ _ _ hne => exact absurd hout hne
  | reading cut fill hcut hlog hread =>
      have hne : log.stored ≠ [] ∨ startPos log₀ fill act = 0 := by
        rw [hlog]
        exact startPos_of_cut cut fill hcut
      obtain ⟨next, hnext, hread'⟩ := hread.refill hlen (startPos_range _ _ _) hne hcount
      exact ⟨next, hnext, .reading cut fill hcut hlog hread'⟩

/-- **`getline`** finds the end once the reply was sent, or the start of what
was read. -/
theorem Committing.getline {r : Resp} {back : List UInt8}
    (h : Committing act log₀ log s (back ++ s.inp)) (hline : s.getline = some (r, s')) :
    s'.out = [] ∧ ((r = .int (-1) ∧ ∀ prior, Committed act log₀ log prior (prior ++ back)) ∨
      ∃ line, r = .bytes line ∧ 0 < line.length ∧ line.length ≤ log.contents.length ∧
        Committing act log₀ log s' (back ++ line ++ s'.inp)) := by
  obtain ⟨hout, hout', hpos, heof, hcases⟩ := Stream.getline_cases hline
  refine ⟨by rw [hout', hout], ?_⟩
  cases h with
  | printing _ _ _ hne => exact absurd hout hne
  | reading cut fill hcut hlog hread =>
      rcases hcases with ⟨rfl, he, hinp, -⟩ | ⟨line, rfl, hne, hinp⟩
      · -- the end: everything read was sent
        have hall := hread.eof he
        rw [hinp, List.append_nil] at hall
        exact .inl ⟨rfl, fun prior => ⟨cut, fill, hcut, hlog, by rw [hall]⟩⟩
      · have hle := hread.delivered_prefix.length_le
        have hle' := readFrom_length_le log (startPos log₀ fill act)
        rw [hinp, List.length_append, List.length_append] at hle
        refine .inr ⟨line, rfl, List.length_pos_of_ne_nil hne, by omega, ?_⟩
        refine .reading cut fill hcut hlog (hread.of_eq hout' hpos heof ?_)
        rw [hinp, List.append_assoc]

end

/-! ## Calls in the middle of a commit -/

theorem Pc.commitDue_of_locked {pc : Pc} (h : pc.locked = true) : pc.commitDue = true := by
  cases pc <;> first | rfl | cases h

section
variable {ι : Type} {w : World ι} {i : ι} {act : Action} {log₀ : CommandLog} {a : LogState}
  {prior : List UInt8}

theorem Within.locked {log : CommandLog} {t : Thread} {streams : Nat → Option Stream}
    {outbox : List UInt8} (h : Within act log₀ log t streams prior outbox) :
    t.pc.locked = true := by
  unfold Within at h
  cases hpc : t.pc <;> simp_all [Pc.locked]

theorem Within.opened {got : List (List UInt8)} {file : Nat} {t : Thread}
    (h : Within (commitAction (session got).text) log₀ a.log (w.threads i) w.streams prior
      (w.outbox i))
    (hpc : (w.threads i).pc = .fopen) (hf : Follows (w.threads i) got)
    (hr : (w.threads i).opened (some file) = some t) :
    Within (commitAction (session got).text) log₀ a.log t
      (w.setStream file (some .fresh)).streams prior (w.outbox i) := by
  unfold Within at h
  unfold Follows at hf
  rw [hpc] at h hf
  obtain ⟨hacc, hcommits⟩ := hf
  obtain ⟨u, hu, -, hfile, hupc⟩ := hacc.opened hcommits.ne_nil (some file)
  rw [hu] at hr
  cases hr
  have hopen : Opened t (w.setStream file (some .fresh)).streams .fresh :=
    opened_setStream hfile w .fresh
  unfold Within
  rw [hupc]
  cases commitAction (session got).text with
  | write text => exact ⟨rfl, h.1, h.2, hopen⟩
  | ioctl seekto => exact ⟨rfl, h.1, h.2, hopen⟩

theorem Within.printed {text : List UInt8} {file : Nat}
    (h : Within act log₀ a.log (w.threads i) w.streams prior (w.outbox i))
    (hpc : (w.threads i).pc = .fprintf text)
    (hfile : (w.threads i).phSocketDataFile = some file) :
    Within act log₀ a.log { w.threads i with pc := .getline }
      (w.setStream file (some { Stream.fresh with out := Stream.fresh.out ++ text })).streams
      prior (w.outbox i) := by
  unfold Within at h
  rw [hpc] at h
  obtain ⟨rfl, hlog, hout, -⟩ := h
  refine ⟨_, [], opened_setStream hfile w _, by rw [hout, List.append_nil], ?_⟩
  rw [hlog]
  exact committing_printed text

theorem Within.sought {fd : Int} {seekto : Seekto} {file : Nat} (fill : Nat → UInt8)
    (h : Within act log₀ a.log (w.threads i) w.streams prior (w.outbox i))
    (hpc : (w.threads i).pc = .ioctl fd seekto)
    (hfile : (w.threads i).phSocketDataFile = some file) :
    Within act log₀ a.log { w.threads i with pc := .getline }
      (w.setStream file
        (some { Stream.fresh with fPos := startPos a.log fill (.ioctl seekto) })).streams
      prior (w.outbox i) := by
  unfold Within at h
  rw [hpc] at h
  obtain ⟨rfl, hlog, hout, -⟩ := h
  refine ⟨_, [], opened_setStream hfile w _, by rw [hout, List.append_nil], ?_⟩
  rw [hlog]
  exact committing_sought seekto fill

theorem Within.sent {line : List UInt8} {total : Nat}
    (h : Within act log₀ a.log (w.threads i) w.streams prior (w.outbox i))
    (hpc : (w.threads i).pc = .send line total) (n : Nat) :
    Within act log₀ a.log ((w.threads i).sendLoop line (total + n)) w.streams prior
      (w.outbox i ++ (line.drop total).take n) := by
  unfold Within at h
  rw [hpc] at h
  obtain ⟨htotal, hline, s, back, hopen, hout, hsent, hcommit⟩ := h
  have hback : back ++ line.drop total ++ s.inp
      = back ++ (line.drop total).take n ++ line.drop (total + n) ++ s.inp := by
    rw [← List.drop_drop, List.append_assoc back ((line.drop total).take n),
      List.take_append_drop]
  rw [hback] at hcommit
  have hsent' : w.outbox i ++ (line.drop total).take n
      = prior ++ (back ++ (line.drop total).take n) := by
    rw [hsent, List.append_assoc]
  unfold Within Thread.sendLoop
  by_cases hmore : total + n < line.length
  · rw [if_pos hmore]
    exact ⟨hmore, hline, s, _, hopen, hout, hsent', hcommit⟩
  · rw [if_neg hmore]
    have hend : line.drop (total + n) = [] := List.drop_eq_nil_iff.mpr (by omega)
    rw [hend, List.append_nil] at hcommit
    exact ⟨s, _, hopen, hsent', hcommit⟩

end

section
variable {ι : Type} [DecidableEq ι] {w w₁ : World ι} {i : ι} {n : Nat}
  {fill : Nat → UInt8} {log₀ : CommandLog} {a : LogState} {prior : List UInt8}

/-- **A call in the middle of a commit**, all but the unlock. -/
theorem Within.call {call : Call} {r : Resp} {t : Thread} {got : List (List UInt8)}
    (h : Within (commitAction (session got).text) log₀ a.log (w.threads i) w.streams prior
      (w.outbox i))
    (htracks : Tracks w.driver a) (hf : Follows (w.threads i) got)
    (hpc : (w.threads i).pc ≠ .mutexUnlock) (hs : (w.threads i).step r = some (call, t))
    (hans : w.answer i n fill call = some (r, w₁)) :
    Within (commitAction (session got).text) log₀ a.log t w₁.streams prior (w₁.outbox i) ∧
      w₁.mutex = w.mutex ∧ w₁.inbox = w.inbox ∧ call ≠ .pthreadMutexUnlock := by
  have hin := h
  unfold Within at hin
  cases Thread.step_cases hs with
  | opened hpc' hr =>
      cases hans
      exact ⟨h.opened hpc' hf hr, rfl, rfl, by simp⟩
  | printed hpc' =>
      rw [hpc'] at hin
      obtain ⟨-, -, -, file, hfile, hstream⟩ := hin
      simp only [World.answer, hfile, hstream, Option.bind_eq_bind, Option.bind_some] at hans
      cases hans
      exact ⟨h.printed hpc' hfile, rfl, rfl, by simp⟩
  | number hpc' =>
      rw [hpc'] at hin
      obtain ⟨hact, hlog, hout, file, hfile, hstream⟩ := hin
      simp only [World.answer, hfile, Option.bind_eq_bind, Option.bind_some] at hans
      cases hans
      exact ⟨⟨hact, hlog, hout, file, rfl, hfile, hstream⟩, rfl, rfl, by simp⟩
  | @sought fd seekto _ hpc' =>
      rw [hpc'] at hin
      obtain ⟨-, -, -, file, rfl, hfile, hstream⟩ := hin
      obtain ⟨ret, hret⟩ := aesdIoctl_fresh htracks seekto fill
      have hpos : Stream.fresh.fPos = 0 := rfl
      simp only [World.answer, Int.toNat_natCast, hstream, hpos, hret, Option.bind_eq_bind,
        Option.bind_some] at hans
      cases hans
      exact ⟨h.sought fill hpc' hfile, rfl, rfl, by simp⟩
  | endOfFile hpc' =>
      rw [hpc'] at hin
      obtain ⟨s, back, ⟨file, hfile, hstream⟩, hout, hcommit⟩ := hin
      simp only [World.answer, hfile, hstream, Option.bind_eq_bind, Option.bind_some,
        Option.bind_eq_some_iff] at hans
      obtain ⟨⟨r, s'⟩, hline, hans⟩ := hans
      cases hans
      obtain ⟨hempty, ⟨-, hall⟩ | ⟨_, hbytes, -⟩⟩ := hcommit.getline hline
      · refine ⟨⟨?_, s', opened_setStream hfile w s', hempty⟩, rfl, rfl, by simp⟩
        show Committed _ log₀ a.log prior (w.outbox i)
        rw [hout]
        exact hall prior
      · cases hbytes
  | line hpc' =>
      rw [hpc'] at hin
      obtain ⟨s, back, ⟨file, hfile, hstream⟩, hout, hcommit⟩ := hin
      simp only [World.answer, hfile, hstream, Option.bind_eq_bind, Option.bind_some,
        Option.bind_eq_some_iff] at hans
      obtain ⟨⟨r, s'⟩, hline, hans⟩ := hans
      cases hans
      obtain ⟨hempty, ⟨hend, -⟩ | ⟨line, hbytes, hlen, hle, hcommit'⟩⟩ := hcommit.getline hline
      · cases hend
      · cases hbytes
        refine ⟨?_, rfl, rfl, by simp⟩
        unfold Within Thread.sendLoop
        rw [if_pos hlen]
        exact ⟨hlen, hle, s', back, opened_setStream hfile w s', hempty, hout, hcommit'⟩
  | notSent hpc' =>
      simp only [World.answer] at hans
      split at hans <;> cases hans
  | sent hpc' hn =>
      simp only [World.answer] at hans
      split at hans <;> cases hans
      refine ⟨?_, rfl, rfl, by simp⟩
      simp only [Int.toNat_natCast, Function.update_self]
      exact h.sent hpc' n
  | fileClosed hpc' =>
      rw [hpc'] at hin
      obtain ⟨hdone, s, ⟨file, hfile, hstream⟩, hempty⟩ := hin
      simp only [World.answer, hfile, hstream, hempty, Option.bind_eq_bind, Option.bind_some,
        if_true] at hans
      cases hans
      exact ⟨hdone, rfl, rfl, by simp⟩
  | notOpened hpc' hr => cases hans
  | unlocked hpc' => exact absurd hpc' hpc
  | noAddress hpc' | address hpc' | ended hpc' | received hpc' | noMemory hpc'
  | reallocated hpc' | locked hpc' =>
      rw [hpc'] at hin
      exact hin.elim

end

/-! ## The system does whole commits -/

section
variable {ι : Type}

/-- The system `w`, whose device is the log state `a`, and whole commits `s`. A
thread without the mutex has done just what `s` has; the one with it is in the
middle of a commit that `s` has not done. -/
structure Serializes (chunks : ι → List (List UInt8)) (a₀ : LogState) (w : World ι)
    (a : LogState) (s : Serial ι) : Prop where
  tracks : Tracks w.driver a
  limit : a.limit = a₀.limit
  buffer : a₀.buffer ≠ .freed → a.buffer ≠ .freed
  inbox : ∀ i, s.got i ++ w.inbox i = chunks i
  follows : ∀ i, Follows (w.threads i) (s.got i)
  due : ∀ i, s.due i = (w.threads i).pc.commitDue
  holder : ∀ i, w.mutex = some i ↔ (w.threads i).pc.locked = true
  outside : ∀ i, w.mutex ≠ some i → w.outbox i = s.outbox i
  inside : ∀ i, w.mutex = some i → Within (s.action i) s.log a.log (w.threads i) w.streams
    (s.outbox i) (w.outbox i)
  free : w.mutex = none → a.log = s.log

/-- The thread a call gives the mutex back for. -/
def gaveBack : Option (ι × Call) → List ι
  | some (i, .pthreadMutexUnlock) => [i]
  | _ => []

theorem gaveBack_call {i : ι} {call : Call} (h : call ≠ .pthreadMutexUnlock) :
    gaveBack (some (i, call)) = [] := by
  cases call <;> first | rfl | exact absurd rfl h

theorem serializes_init {driver : DriverState} {a₀ : LogState} (h : Tracks driver a₀)
    (chunks : ι → List (List UInt8)) :
    Serializes chunks a₀ (World.init driver chunks) a₀ (.init a₀.log) where
  tracks := h
  limit := rfl
  buffer := id
  inbox := fun _ => rfl
  follows := fun _ => follows_init
  due := fun _ => rfl
  holder := by
    intro i
    constructor
    · intro hm
      cases hm
    · intro hl
      cases hl
  outside := fun _ _ => rfl
  inside := fun i hm => by cases hm
  free := fun _ => rfl

theorem Serializes.follows_call {chunks : ι → List (List UInt8)} {a₀ a : LogState}
    {w : World ι} {s : Serial ι} {i : ι} (h : Serializes chunks a₀ w a s) {call : Call}
    {r : Resp} {t : Thread} (hs : (w.threads i).step r = some (call, t)) :
    Follows t (s.got i ++ (chunkOf (call, r)).toList) :=
  ((h.follows i).step hs).follows

end

section
variable {ι : Type} [DecidableEq ι] {chunks : ι → List (List UInt8)} {a₀ a a' : LogState}
  {w w' w₁ : World ι} {s s' : Serial ι} {i : ι} {n : Nat} {fill : Nat → UInt8}

/-- **A step outside**: a thread without the mutex goes on, and so may its
connection among the whole commits. -/
theorem Serializes.step_outside (h : Serializes chunks a₀ w a s) (hsame : SameElse i w w')
    (hi : w.mutex ≠ some i) (hmutex : w'.mutex = w.mutex) (hdriver : w'.driver = w.driver)
    (hstreams : w'.streams = w.streams) (houtbox : w'.outbox i = w.outbox i)
    (hlog : s'.log = s.log) (hsent : s'.outbox = s.outbox)
    (hgot : ∀ j, j ≠ i → s'.got j = s.got j) (hdue : ∀ j, j ≠ i → s'.due j = s.due j)
    (hinbox : s'.got i ++ w'.inbox i = chunks i)
    (hfollows : Follows (w'.threads i) (s'.got i))
    (hdue' : s'.due i = (w'.threads i).pc.commitDue)
    (hlocked : (w'.threads i).pc.locked = false) : Serializes chunks a₀ w' a s' where
  tracks := by rw [hdriver]; exact h.tracks
  limit := h.limit
  buffer := h.buffer
  inbox := by
    intro j
    by_cases hj : j = i
    · subst hj
      exact hinbox
    · rw [hgot j hj, hsame.inbox j hj, h.inbox j]
  follows := by
    intro j
    by_cases hj : j = i
    · subst hj
      exact hfollows
    · rw [hgot j hj, hsame.threads j hj]
      exact h.follows j
  due := by
    intro j
    by_cases hj : j = i
    · subst hj
      exact hdue'
    · rw [hdue j hj, hsame.threads j hj, h.due j]
  holder := by
    intro j
    rw [hmutex]
    by_cases hj : j = i
    · subst hj
      rw [hlocked]
      simp [hi]
    · rw [hsame.threads j hj]
      exact h.holder j
  outside := by
    intro j hm
    rw [hmutex] at hm
    rw [hsent]
    by_cases hj : j = i
    · subst hj
      rw [houtbox, h.outside j hm]
    · rw [hsame.outbox j hj, h.outside j hm]
  inside := by
    intro j hm
    rw [hmutex] at hm
    have hj : j ≠ i := by
      rintro rfl
      exact hi hm
    rw [Serial.action, hgot j hj, hlog, hsent, hsame.threads j hj, hsame.outbox j hj, hstreams]
    exact h.inside j hm
  free := by
    rw [hmutex, hlog]
    exact h.free

/-- **A step inside**: the thread with the mutex goes on with its commit. -/
theorem Serializes.step_inside (h : Serializes chunks a₀ w a s) (hsame : SameElse i w w')
    (hi : w.mutex = some i) (hmutex : w'.mutex = some i) (htracks : Tracks w'.driver a')
    (hlimit : a'.limit = a.limit) (hbuffer : a.buffer ≠ .freed → a'.buffer ≠ .freed)
    (hinbox : w'.inbox i = w.inbox i) (hfollows : Follows (w'.threads i) (s.got i))
    (hwithin : Within (s.action i) s.log a'.log (w'.threads i) w'.streams (s.outbox i)
      (w'.outbox i)) : Serializes chunks a₀ w' a' s where
  tracks := htracks
  limit := by rw [hlimit, h.limit]
  buffer := fun hb => hbuffer (h.buffer hb)
  inbox := by
    intro j
    by_cases hj : j = i
    · subst hj
      rw [hinbox, h.inbox j]
    · rw [hsame.inbox j hj, h.inbox j]
  follows := by
    intro j
    by_cases hj : j = i
    · subst hj
      exact hfollows
    · rw [hsame.threads j hj]
      exact h.follows j
  due := by
    intro j
    by_cases hj : j = i
    · subst hj
      rw [h.due j, Pc.commitDue_of_locked ((h.holder j).mp hi),
        Pc.commitDue_of_locked hwithin.locked]
    · rw [hsame.threads j hj, h.due j]
  holder := by
    intro j
    by_cases hj : j = i
    · subst hj
      simp [hmutex, hwithin.locked]
    · rw [hmutex, ← hi, hsame.threads j hj]
      exact h.holder j
  outside := by
    intro j hm
    rw [hmutex, ← hi] at hm
    have hj : j ≠ i := by
      rintro rfl
      exact hm hi
    rw [hsame.outbox j hj, h.outside j hm]
  inside := by
    intro j hm
    rw [hmutex] at hm
    cases hm
    exact hwithin
  free := by
    intro hm
    rw [hmutex] at hm
    cases hm

/-- **The lock**: a commit begins. -/
theorem Serializes.step_lock (h : Serializes chunks a₀ w a s) (hsame : SameElse i w w')
    (hpc : (w.threads i).pc = .mutexLock) (hfree : w.mutex = none) (hmutex : w'.mutex = some i)
    (hdriver : w'.driver = w.driver) (hinbox : w'.inbox i = w.inbox i)
    (houtbox : w'.outbox i = w.outbox i) (hpc' : (w'.threads i).pc = .fopen)
    (hfollows : Follows (w'.threads i) (s.got i)) : Serializes chunks a₀ w' a s where
  tracks := by rw [hdriver]; exact h.tracks
  limit := h.limit
  buffer := h.buffer
  inbox := by
    intro j
    by_cases hj : j = i
    · subst hj
      rw [hinbox, h.inbox j]
    · rw [hsame.inbox j hj, h.inbox j]
  follows := by
    intro j
    by_cases hj : j = i
    · subst hj
      exact hfollows
    · rw [hsame.threads j hj]
      exact h.follows j
  due := by
    intro j
    by_cases hj : j = i
    · subst hj
      rw [h.due j, hpc, hpc']
      rfl
    · rw [hsame.threads j hj, h.due j]
  holder := by
    intro j
    rw [hmutex]
    by_cases hj : j = i
    · subst hj
      simp [hpc', Pc.locked]
    · have hl := h.holder j
      rw [hfree] at hl
      rw [hsame.threads j hj, ← hl]
      simp [Ne.symm hj]
  outside := by
    intro j hm
    rw [hmutex] at hm
    have hj : j ≠ i := by
      rintro rfl
      exact hm rfl
    rw [hsame.outbox j hj]
    apply h.outside
    rw [hfree]
    simp
  inside := by
    intro j hm
    rw [hmutex] at hm
    cases hm
    unfold Within
    rw [hpc']
    refine ⟨h.free hfree, ?_⟩
    rw [houtbox]
    apply h.outside
    rw [hfree]
    simp
  free := by
    intro hm
    rw [hmutex] at hm
    cases hm

/-- **The unlock**: the commit is done, as one step. -/
theorem Serializes.step_unlock (h : Serializes chunks a₀ w a s) (hsame : SameElse i w w')
    (hpc : (w.threads i).pc = .mutexUnlock) (hmutex : w'.mutex = none)
    (hdriver : w'.driver = w.driver) (hinbox : w'.inbox i = w.inbox i)
    (houtbox : w'.outbox i = w.outbox i) (hpc' : (w'.threads i).pc = .recv)
    (hfollows : Follows (w'.threads i) (s.got i)) :
    ∃ cut fill, s.step (.commit i cut fill)
        = some (some (i, s.action i), s.commit i cut fill) ∧
      Serializes chunks a₀ w' a (s.commit i cut fill) := by
  have hm : w.mutex = some i := (h.holder i).mpr (by rw [hpc]; rfl)
  have hin := h.inside i hm
  unfold Within at hin
  rw [hpc] at hin
  obtain ⟨cut, fill, hcut, hlog, hout⟩ := hin
  have hdue : s.due i = true := by
    rw [h.due i, hpc]
    rfl
  refine ⟨cut, fill, by simp [Serial.step, hdue, hcut], ?_⟩
  constructor
  case tracks => rw [hdriver]; exact h.tracks
  case limit => exact h.limit
  case buffer => exact h.buffer
  case inbox =>
    intro j
    by_cases hj : j = i
    · subst hj
      rw [hinbox]
      exact h.inbox j
    · rw [hsame.inbox j hj]
      exact h.inbox j
  case follows =>
    intro j
    by_cases hj : j = i
    · subst hj
      exact hfollows
    · rw [hsame.threads j hj]
      exact h.follows j
  case due =>
    intro j
    by_cases hj : j = i
    · subst hj
      simp [Serial.commit, hpc', Pc.commitDue, Pc.locked]
    · simp only [Serial.commit, Function.update_of_ne hj]
      rw [hsame.threads j hj, h.due j]
  case holder =>
    intro j
    rw [hmutex]
    by_cases hj : j = i
    · subst hj
      simp [hpc', Pc.locked]
    · have hl := h.holder j
      rw [hm] at hl
      rw [hsame.threads j hj, ← hl]
      simp [Ne.symm hj]
  case outside =>
    intro j _
    by_cases hj : j = i
    · subst hj
      simp only [Serial.commit, Function.update_self]
      rw [houtbox, hout, hlog]
    · simp only [Serial.commit, Function.update_of_ne hj]
      rw [hsame.outbox j hj]
      apply h.outside
      rw [hm]
      simp [Ne.symm hj]
  case inside =>
    intro j hj
    rw [hmutex] at hj
    cases hj
  case free => exact fun _ => hlog

/-- **A call outside**, neither the lock nor a `recv` of a chunk: no commit
moves. -/
theorem Serializes.step_quiet (h : Serializes chunks a₀ w a s) {call : Call} {r : Resp}
    {t : Thread} (hs : (w.threads i).step r = some (call, t))
    (hans : w.answer i n fill call = some (r, w₁)) (hlocked : (w.threads i).pc.locked = false)
    (hmutex : w₁.mutex = w.mutex) (hstreams : w₁.streams = w.streams)
    (houtbox : w₁.outbox i = w.outbox i) (hc : chunkOf (call, r) = none)
    (hdue : t.pc.commitDue = (w.threads i).pc.commitDue) (hlocked' : t.pc.locked = false) :
    Serializes chunks a₀ (w₁.setThread i t) a s := by
  obtain ⟨-, hdriver, hin, -⟩ := World.answer_frame hans
  have hfollows := h.follows_call hs
  rw [hc, Option.toList_none, List.append_nil] at hfollows
  rw [hc, Option.toList_none, List.nil_append] at hin
  have hi : w.mutex ≠ some i := by
    intro hm
    have := (h.holder i).mp hm
    rw [hlocked] at this
    cases this
  apply h.step_outside (World.answer_same hans t) hi hmutex hdriver hstreams houtbox rfl rfl
    (fun _ _ => rfl) (fun _ _ => rfl)
  · show s.got i ++ w₁.inbox i = chunks i
    rw [hin, h.inbox i]
  · rw [World.setThread_self]
    exact hfollows
  · rw [World.setThread_self, hdue, h.due i]
  · rw [World.setThread_self]
    exact hlocked'

/-- What a step of the system is among whole commits: nothing, a chunk
received, or the commit of the thread that gave the mutex back. -/
def Matched (chunks : ι → List (List UInt8)) (a₀ : LogState) (s : Serial ι)
    (out : Option (ι × Call)) (w' : World ι) : Prop :=
  ∃ acts outs s', run Serial.step s acts = some (outs, s') ∧
    outs.flatMap committer = gaveBack out ∧ ∃ a', Serializes chunks a₀ w' a' s'

theorem Serializes.matched {out : Option (ι × Call)} (h : Serializes chunks a₀ w' a' s)
    (hout : gaveBack out = []) : Matched chunks a₀ s out w' :=
  ⟨[], [], s, rfl, hout.symm, a', h⟩

theorem Serializes.step_recv (h : Serializes chunks a₀ w a s) {chunk : List UInt8}
    {t : Thread} (hpc : (w.threads i).pc = .recv) (hlen : chunk.length ≤ recvBufLen - 1)
    (hr : (w.threads i).received chunk = some t)
    (hs : (w.threads i).step (.bytes chunk) = some (.recv (recvBufLen - 1), t))
    (hans : w.answer i n fill (.recv (recvBufLen - 1)) = some (.bytes chunk, w₁))
    (hmutex : w₁.mutex = w.mutex) (hstreams : w₁.streams = w.streams)
    (houtbox : w₁.outbox i = w.outbox i) :
    Matched chunks a₀ s (some (i, .recv (recvBufLen - 1))) (w₁.setThread i t) := by
  have hf := h.follows i
  unfold Follows at hf
  rw [hpc] at hf
  obtain ⟨-, hpc'⟩ := hf.received hlen hr
  have hdue : s.due i = false := by
    rw [h.due i, hpc]
    rfl
  have hi : w.mutex ≠ some i := by
    intro hm
    have := (h.holder i).mp hm
    rw [hpc] at this
    cases this
  obtain ⟨-, hdriver, hin, -⟩ := World.answer_frame hans
  have hin : chunk :: w₁.inbox i = w.inbox i := hin
  refine ⟨[.receive i chunk], [none], s.receive i chunk, ?_, rfl, a, ?_⟩
  · simp [run, Serial.step, hdue]
  · refine h.step_outside (World.answer_same hans t) hi hmutex hdriver hstreams houtbox rfl rfl
      ?_ ?_ ?_ ?_ ?_ ?_
    · intro j hj
      exact Function.update_of_ne hj _ _
    · intro j hj
      exact Function.update_of_ne hj _ _
    · show Function.update s.got i (s.got i ++ [chunk]) i ++ w₁.inbox i = chunks i
      rw [Function.update_self, List.append_assoc, List.singleton_append, hin, h.inbox i]
    · simp only [Serial.receive, Function.update_self, World.setThread_self]
      exact h.follows_call hs
    · simp only [Serial.receive, Function.update_self]
      rw [World.setThread_self, hpc']
      rfl
    · rw [World.setThread_self, hpc']
      rfl

theorem Serializes.step_call (h : Serializes chunks a₀ w a s) {out : Option (ι × Call)}
    (hs : w.step (.call i n fill) = some (out, w')) : Matched chunks a₀ s out w' := by
  obtain ⟨call, r, w₁, t, hstep, hans, rfl, rfl⟩ := World.step_call hs
  have hsame := World.answer_same hans t
  have hfollows := h.follows_call hstep
  cases hl : (w.threads i).pc.locked with
  | true =>
      have hm := (h.holder i).mpr hl
      by_cases hunlock : (w.threads i).pc = .mutexUnlock
      · obtain ⟨hcall, hres⟩ := Thread.step_eq_some.mp hstep
        unfold Thread.call at hcall
        unfold Thread.resume at hres
        rw [hunlock] at hcall hres
        cases hcall
        cases hans
        cases hres
        obtain ⟨cut, fill, hcut, h'⟩ := h.step_unlock hsame hunlock rfl rfl rfl rfl
          (by rw [World.setThread_self])
          (by rw [World.setThread_self]; simpa [chunkOf] using hfollows)
        exact ⟨[.commit i cut fill], [some (i, s.action i)], s.commit i cut fill,
          run_cons.mpr ⟨_, _, [], hcut, rfl, rfl⟩, rfl, a, h'⟩
      · obtain ⟨hwithin, hmutex, hinbox, hne⟩ :=
          (h.inside i hm).call h.tracks (h.follows i) hunlock hstep hans
        obtain ⟨-, hdriver, hin, -⟩ := World.answer_frame hans
        have hc : (chunkOf (call, r)).toList = [] := by
          rw [hinbox] at hin
          simpa using hin
        rw [hc, List.append_nil] at hfollows
        refine Serializes.matched (h.step_inside hsame hm (hmutex.trans hm) ?_ rfl id
          (congrFun hinbox i) ?_ ?_) (gaveBack_call hne)
        · show Tracks w₁.driver a
          rw [hdriver]
          exact h.tracks
        · rw [World.setThread_self]
          exact hfollows
        · rw [World.setThread_self]
          exact hwithin
  | false =>
      have hf := h.follows i
      unfold Follows at hf
      cases Thread.step_cases hstep with
      | noAddress hpc => cases hans
      | address hpc =>
          have hans' := hans
          cases hans
          exact (h.step_quiet hstep hans' hl rfl rfl rfl rfl (by rw [hpc]; rfl) rfl).matched rfl
      | ended hpc hn =>
          have hans' := hans
          simp only [World.answer] at hans
          split at hans <;> cases hans
          exact (h.step_quiet hstep hans' hl rfl rfl rfl rfl (by rw [hpc]; rfl) rfl).matched rfl
      | received hpc hlen hr =>
          have hans' := hans
          simp only [World.answer] at hans
          split at hans <;> cases hans
          exact h.step_recv hpc hlen.2 hr hstep hans' rfl rfl rfl
      | noMemory hpc => cases hans
      | reallocated hpc hr =>
          have hans' := hans
          rw [hpc] at hf
          obtain ⟨pre, chunk, -, hrec, rfl, rfl⟩ := hf
          obtain ⟨u, hu, -, hupc⟩ :=
            hrec.reallocated (decide (newline ∈ chunkText chunk)) _
          rw [hu] at hr
          cases hr
          cases hans
          refine (h.step_quiet hstep hans' hl rfl rfl rfl rfl ?_ ?_).matched rfl
          · rw [hupc, hpc]
            cases decide (newline ∈ chunkText chunk) <;> rfl
          · rw [hupc]
            cases decide (newline ∈ chunkText chunk) <;> rfl
      | locked hpc =>
          simp only [World.answer] at hans
          split at hans <;> cases hans
          rename_i hfree
          refine Serializes.matched (h.step_lock hsame hpc hfree rfl rfl rfl rfl ?_ ?_) rfl
          · rw [World.setThread_self]
          · rw [World.setThread_self]
            simpa [chunkOf] using hfollows
      | notOpened hpc | opened hpc | printed hpc | number hpc | sought hpc | endOfFile hpc
      | line hpc | notSent hpc | sent hpc | fileClosed hpc | unlocked hpc =>
          rw [hpc] at hl
          cases hl

/-- **The stream writes** one more piece of its text. -/
theorem Serializes.step_flush (h : Serializes chunks a₀ w a s) {env : WriteEnv}
    {out : Option (ι × Call)} (hs : w.step (.flush i n env) = some (out, w')) :
    Matched chunks a₀ s out w' := by
  simp only [World.step, Option.bind_eq_bind, Option.bind_eq_some_iff] at hs
  obtain ⟨file, hfile, st, hstream, hs⟩ := hs
  split at hs
  case isFalse => cases hs
  rename_i hcond
  have hpc := hcond.1
  have hn := hcond.2.1
  have hle := hcond.2.2.1
  simp only [Option.bind_eq_some_iff] at hs
  obtain ⟨⟨ret, driver⟩, hwrite, hs⟩ := hs
  split at hs
  case isFalse => cases hs
  rename_i hret
  have hret : ret = (n : Int) := hret
  cases hs
  -- the driver follows the log: the write returned its count, so it was stored
  have hlock := h.tracks.write ⟨st.out.take n, by
    have := List.length_take_le n st.out
    omega⟩ env
  rw [hwrite] at hlock
  obtain ⟨a', ha, htracks⟩ := hlock.of_some_left
  obtain ⟨hret', hlimit, hcases⟩ := LogState.write_cases ha
  have hstored := WriteOutcome.ret_nonneg_iff.mp (by rw [← hret', hret]; omega)
  rw [hstored] at hcases
  simp only [reduceCtorEq, false_and, false_or, true_and] at hcases
  obtain ⟨-, hlog, hbuffer⟩ := hcases
  have hm := (h.holder i).mpr (by rw [hpc]; rfl)
  have hin := h.inside i hm
  unfold Within at hin
  rw [hpc] at hin
  obtain ⟨st', back, hopen, hout, hcommit⟩ := hin
  obtain rfl := Opened.eq ⟨file, hfile, hstream⟩ hopen
  refine Serializes.matched (h.step_inside ⟨fun _ _ => rfl, fun _ _ => rfl, fun _ _ => rfl⟩
    hm hm htracks hlimit (fun _ => ?_) rfl (h.follows i) ?_) rfl
  · rw [hbuffer]
    split <;> simp
  · show Within _ _ a'.log (w.threads i) _ _ (w.outbox i)
    unfold Within
    rw [hpc, hlog]
    exact ⟨_, back, ⟨file, hfile, Function.update_self _ _ _⟩, hout, hcommit.flush hn hle⟩

/-- **The stream reads** on in its reply. -/
theorem Serializes.step_refill (h : Serializes chunks a₀ w a s) {count : Nat}
    {out : Option (ι × Call)} (hs : w.step (.refill i count) = some (out, w')) :
    Matched chunks a₀ s out w' := by
  simp only [World.step, Option.bind_eq_bind, Option.bind_eq_some_iff] at hs
  obtain ⟨file, hfile, st, hstream, hs⟩ := hs
  split at hs
  case isFalse => cases hs
  rename_i hcond
  obtain ⟨hpc, hempty, -, -, hcount⟩ := hcond
  simp only [Option.bind_eq_some_iff] at hs
  obtain ⟨⟨ret, data, fPos⟩, hread, hs⟩ := hs
  cases hs
  obtain ⟨held, es, hr⟩ := h.tracks.ring
  rw [hr.aesdRead] at hread
  have hm := (h.holder i).mpr (by rw [hpc]; rfl)
  have hin := h.inside i hm
  unfold Within at hin
  rw [hpc] at hin
  obtain ⟨st', back, hopen, hout, hcommit⟩ := hin
  obtain rfl := Opened.eq ⟨file, hfile, hstream⟩ hopen
  refine Serializes.matched (h.step_inside ⟨fun _ _ => rfl, fun _ _ => rfl, fun _ _ => rfl⟩
    hm hm h.tracks rfl id rfl (h.follows i) ?_) rfl
  obtain ⟨next, hnext, hcommit'⟩ := hcommit.refill hempty hr.contents_lt hcount
  rw [hnext] at hread
  cases hread
  show Within _ _ a.log (w.threads i) _ _ (w.outbox i)
  unfold Within
  rw [hpc]
  refine ⟨_, back, ⟨file, hfile, Function.update_self _ _ _⟩, hout, ?_⟩
  show Committing _ _ _ _ (back ++ (st.inp ++ data))
  rw [← List.append_assoc]
  exact hcommit'

/-- **One step** is whole commits. -/
theorem Serializes.step (h : Serializes chunks a₀ w a s) {act : Act ι}
    {out : Option (ι × Call)} (hs : w.step act = some (out, w')) : Matched chunks a₀ s out w' := by
  cases act with
  | call i n fill => exact h.step_call hs
  | flush i n env => exact h.step_flush hs
  | refill i count => exact h.step_refill hs

/-- **Every run** is a run of whole commits. -/
theorem run_serializes {driver : DriverState} (h : Tracks driver a₀)
    {acts : List (Act ι)} {outs : List (Option (ι × Call))}
    (hrun : run World.step (.init driver chunks) acts = some (outs, w)) :
    ∃ acts' outs' s a, run Serial.step (.init a₀.log) acts' = some (outs', s) ∧
      (commits outs').map Prod.fst = outs.flatMap gaveBack ∧ Serializes chunks a₀ w a s := by
  obtain ⟨acts', outs', s, hrun', hseen, a, ha⟩ :=
    run_simulates (R := fun w s => ∃ a, Serializes chunks a₀ w a s)
      (fun w s act out w' ⟨a, ha⟩ hs => ha.step hs) ⟨a₀, serializes_init h chunks⟩ hrun
  refine ⟨acts', outs', s, a, hrun', ?_, ha⟩
  rw [← hseen, flatMap_committer]

/-- In the middle of a commit the client was sent a part of its reply. -/
theorem Within.prior_part {act : Action} {log₀ log : CommandLog} {t : Thread}
    {streams : Nat → Option Stream} {prior outbox : List UInt8}
    (h : Within act log₀ log t streams prior outbox) : prior <+: outbox := by
  unfold Within at h
  cases hpc : t.pc <;> rw [hpc] at h
  case fopen => rw [h.2]
  case fprintf => rw [h.2.2.1]
  case fileno => rw [h.2.2.1]
  case ioctl => rw [h.2.2.1]
  case getline =>
    obtain ⟨_, back, -, hout, -⟩ := h
    exact ⟨back, hout.symm⟩
  case send =>
    obtain ⟨-, -, _, back, -, -, hout, -⟩ := h
    exact ⟨back, hout.symm⟩
  case fclose =>
    obtain ⟨⟨_, _, -, -, hout⟩, -⟩ := h
    exact ⟨_, hout.symm⟩
  case mutexUnlock =>
    obtain ⟨_, _, -, -, hout⟩ := h
    exact ⟨_, hout.symm⟩
  all_goals exact h.elim

/-- **The server is serializable.** Take any reachable device and any number of
connections, sending anything in any chunks. For every run of the system, in which the
threads' calls succeed, there is a run of whole commits in the order in which the
threads gave the mutex back. In it every connection received the same chunks. A client
whose thread does not have the mutex was sent the same bytes, and one whose thread has
it a part of the next reply more. When the mutex is free, the device stores the same
commands and has as many bytes pending. -/
theorem traffic_serializes (limit : Nat) (hl : limit ≤ 2 ^ 56) (fPos : Nat → Int)
    {ops : List Op} {rs : List Reply} {d : Device}
    (h : run Device.step (.init limit hl fPos) ops = some (rs, d))
    (chunks : ι → List (List UInt8)) {acts : List (Act ι)} {outs : List (Option (ι × Call))}
    {w : World ι} (hrun : run World.step (.init d.driver chunks) acts = some (outs, w)) :
    ∃ acts' outs' s,
      run Serial.step (.init (commandLog (accepted ops rs))) acts' = some (outs', s) ∧
      (commits outs').map Prod.fst = outs.flatMap gaveBack ∧
      (∀ i, s.got i ++ w.inbox i = chunks i) ∧
      (∀ i, w.mutex ≠ some i → w.outbox i = s.outbox i) ∧
      (∀ i, w.mutex = some i → s.outbox i <+: w.outbox i) ∧
      (w.mutex = none → w.driver.entries = s.log.stored ∧
        w.driver.aesdDevice.writeBufferSize = s.log.pending.length) := by
  obtain ⟨b, -, hb, hlog⟩ := run_tracks h
  obtain ⟨acts', outs', s, a, hrun', hseen, ha⟩ := run_serializes hb.state hrun
  rw [hlog] at hrun'
  refine ⟨acts', outs', s, hrun', hseen, ha.inbox, ha.outside, ?_, ?_⟩
  · intro i hm
    exact (ha.inside i hm).prior_part
  · intro hm
    rw [ha.tracks.entries, ha.tracks.size, ha.free hm]
    exact ⟨rfl, rfl⟩

end

/-- Two clients, the first with a line and the start of another. -/
def twoClients : Bool → List (List UInt8)
  | false => [[97, newline], [98]]
  | true => [[99, newline]]

/-- The first client's line is committed while the second waits. -/
def twoClientsActs : List (Act Bool) :=
  let call := fun i n => Act.call i n fun _ => 0
  [call false 0, call true 0, call false 0, call true 0, call false 0, call true 0,
    call false 0, call false 0, call false 0, .flush false 1 .quiet, .flush false 1 .quiet,
    .refill false 5, call false 0, call false 1, call false 1, .refill false 5,
    call false 0, call false 0, call false 0, call false 0]

theorem twoClients_run : ∃ outs w,
    run World.step (.init (aesdInitModule 4096 (by decide)) twoClients) twoClientsActs
      = some (outs, w) ∧ outs.flatMap gaveBack = [false] ∧ w.mutex = none := by
  have hrun : (run World.step (.init (aesdInitModule 4096 (by decide)) twoClients)
      twoClientsActs).any (fun p => p.1.flatMap gaveBack = [false] ∧ p.2.mutex = none)
      = true := by decide +kernel
  obtain ⟨⟨outs, w⟩, hrun, hp⟩ := (Option.any_eq_true _ _).mp hrun
  exact ⟨outs, w, hrun, of_decide_eq_true hp⟩

theorem traffic_serializes_two_clients : ∃ outs w acts' outs' s,
    run World.step (.init (aesdInitModule 4096 (by decide)) twoClients) twoClientsActs
      = some (outs, w) ∧
    run Serial.step (.init .empty) acts' = some (outs', s) ∧
    (commits outs').map Prod.fst = [false] ∧ ∀ i, w.outbox i = s.outbox i := by
  obtain ⟨outs, w, hrun, hseen, hm⟩ := twoClients_run
  have hinit : run Device.step (.init 4096 (by decide) fun _ => 0) []
      = some ([], .init 4096 (by decide) fun _ => 0) := rfl
  obtain ⟨acts', outs', s, hrun', hseen', -, hout, -, -⟩ :=
    traffic_serializes 4096 (by decide) (fun _ => 0) hinit twoClients hrun
  refine ⟨outs, w, acts', outs', s, hrun, hrun', by rw [hseen', hseen], fun i => hout i ?_⟩
  rw [hm]
  simp

section
variable {ι : Type} [DecidableEq ι]

/-- **No byte is lost, repeated or mixed.** In every run over any traffic in which the
threads' calls succeed, when the mutex is free the device has been given what it had
before and then the texts of the commits, whole and one after the other, in the order
in which the threads gave the mutex back; and the commits of each connection are those
of the chunks it has received, but for one that is still to come. -/
theorem traffic_conserves (limit : Nat) (hl : limit ≤ 2 ^ 56) (fPos : Nat → Int)
    {ops : List Op} {rs : List Reply} {d : Device}
    (h : run Device.step (.init limit hl fPos) ops = some (rs, d))
    (chunks : ι → List (List UInt8)) {acts : List (Act ι)} {outs : List (Option (ι × Call))}
    {w : World ι} (hrun : run World.step (.init d.driver chunks) acts = some (outs, w))
    (hfree : w.mutex = none) :
    ∃ (made : List (ι × Action)) (a : LogState), Tracks w.driver a ∧
      a.log.bytes = (commandLog (accepted ops rs)).bytes ++ made.flatMap (fun c => c.2.text) ∧
      made.map Prod.fst = outs.flatMap gaveBack ∧
      ∀ i, ∃ got, got ++ w.inbox i = chunks i ∧
        ((made.filter fun c => c.1 = i).map Prod.snd = (session got).handled.flatten ∨
          Commits got ∧ (made.filter fun c => c.1 = i).map Prod.snd
            = (session got.dropLast).handled.flatten) := by
  obtain ⟨b, -, hb, hlog⟩ := run_tracks h
  obtain ⟨acts', outs', s, a, hrun', hseen, ha⟩ := run_serializes hb.state hrun
  rw [hlog] at hrun'
  refine ⟨commits outs', a, ha.tracks, ?_, hseen, fun i => ⟨s.got i, ha.inbox i, ?_⟩⟩
  · rw [ha.free hfree]
    exact Serial.bytes_of_run hrun'
  · have hdone := Serial.done_of_run hrun' i
    have hmade : ((commits outs').filter fun c => c.1 = i).map Prod.snd
        = (if s.due i then (session (s.got i).dropLast).handled
          else (session (s.got i)).handled).flatten := hdone.commits
    rw [hmade]
    cases hdue : s.due i with
    | false => exact .inl rfl
    | true => exact .inr ⟨hdone.due hdue, rfl⟩

end

theorem traffic_conserves_two_clients : ∃ outs w,
    run World.step (.init (aesdInitModule 4096 (by decide)) twoClients) twoClientsActs
      = some (outs, w) ∧
    ∃ (made : List (Bool × Action)) (a : LogState), Tracks w.driver a ∧
      a.log.bytes = made.flatMap (fun c => c.2.text) ∧ made.map Prod.fst = [false] := by
  obtain ⟨outs, w, hrun, hseen, hm⟩ := twoClients_run
  have hinit : run Device.step (.init 4096 (by decide) fun _ => 0) []
      = some ([], .init 4096 (by decide) fun _ => 0) := rfl
  obtain ⟨made, a, ha, hbytes, hmade, -⟩ :=
    traffic_conserves 4096 (by decide) (fun _ => 0) hinit twoClients hrun hm
  refine ⟨outs, w, hrun, made, a, ha, ?_, by rw [hmade, hseen]⟩
  rw [hbytes]
  rfl

end Aesd.Server
