import Aesd.Server.Main
import Aesd.Server.Session
import Mathlib.Data.List.Count

/-!
# The descriptors of the connections

What `accept` returns is to be closed once, by whoever has the connection
last: `main`, which sets it up, or the thread that serves it. No step of the
process closes one, so the rule is broken from the first connection that ends
(`descriptors_closed_iff`).
-/

namespace Aesd.Server

open Aesd.Lib

/-! ## The rule -/

/-- The descriptor of a client. -/
def Fd.isClient : Fd → Bool
  | .hSockfd => false
  | .client _ => true

/-- The descriptor a call closes. -/
def Event.closes : Event → Option Fd
  | .main (.close fd) => some fd
  | _ => none

/-- How often the descriptor of the `n`-th connection was closed. -/
def closings (outs : List (Option Event)) (n : Nat) : Nat :=
  outs.countP fun out => out.bind Event.closes = some (.client n)

/-- The connection `main` is setting up. -/
def MainPc.settingUp : MainPc → Option Fd
  | .malloc fd | .pthreadCreate fd _ | .freeFailed fd _ => some fd
  | _ => none

/-- The open descriptors of clients. -/
def Process.openClients (s : Process) : Nat := s.openFds.countP Fd.isClient

/-- The threads that have not ended. -/
def Process.unfinished (s : Process) : Nat :=
  s.threads.countP fun st => st.thread.pc ≠ .done

/-- The connections that someone has: a thread each, and the one being set
up. -/
def Process.owned (s : Process) : Nat :=
  s.unfinished + if s.pc.settingUp.isSome then 1 else 0

/-- The `n`-th connection is being set up, or a thread that has not ended has
its descriptor. -/
def Process.InUse (s : Process) (n : Nat) : Prop :=
  s.pc.settingUp = some (.client n) ∨ ∃ st ∈ s.threads, st.thread.pc ≠ .done ∧
    ∃ node, s.entries st.pArg = some node ∧ node.val.hRecvfd = .client n

/-- **The rule**: no descriptor of a client is closed twice, one that nobody
has any more is closed, and no more are open than somebody has. -/
structure ClosedOnce (outs : List (Option Event)) (s : Process) : Prop where
  once : ∀ n < s.accepted, closings outs n ≤ 1
  closed : ∀ n < s.accepted, ¬ s.InUse n → closings outs n = 1
  bounded : s.openClients ≤ s.owned

/-- The step is the last of a connection: `malloc` returned `NULL`, the entry
that got no thread is freed, or the thread takes one of its exits. -/
def Process.endsConnection (s : Process) : ProcessAct → Bool
  | .main r =>
      match s.pc, r with
      | .malloc _, .null => true
      | .freeFailed _ _, _ => true
      | _, _ => false
  | .thread tid r =>
      match s.threads[tid]? with
      | some st => st.thread.pc.exits r
      | none => false
  | .signal => false

/-! ## What a step can do -/

/-- The entry the call frees. -/
def MainPc.freeing : MainPc → Option Nat
  | .freeFailed _ p | .sweepFree p | .cleanupFree p => some p
  | _ => none

/-- What a step of `main` does to the connections and their entries. -/
inductive MainStep (s : Process) : MainResp → Process → Prop
  /-- A turn of a loop, a failed `accept`, a join, the end. -/
  | quiet {r : MainResp} {s' : Process} (hup : s.pc.settingUp = none)
      (hup' : s'.pc.settingUp = none) (hthreads : s'.threads = s.threads)
      (hvals : SameVals s.entries s'.entries) (hopen : s'.openClients = s.openClients)
      (haccepted : s'.accepted = s.accepted)
      (hjoined : ∀ p, s'.pc.freeing = some p → ∃ n, s.joined p n = some ()) :
      MainStep s r s'
  | accepted (hpc : s.pc = .accept) : MainStep s .descriptor s.accept
  | gaveUp {fd : Fd} (hpc : s.pc = .malloc fd) : MainStep s .null s.startSweep
  | entry {fd : Fd} {p : Nat} {s' : Process} (hpc : s.pc = .malloc fd)
      (hp : s.entries p = none) (hs : s' = { s with
        pc := .pthreadCreate fd p
        entries := Function.update s.entries p (some ⟨⟨fd, false, none⟩, none⟩) }) :
      MainStep s (.block p) s'
  /-- The new thread's entry has its `tid`. -/
  | thread {fd : Fd} {p : Nat} {node : Node ThreadArgs} {s' : Process}
      (hpc : s.pc = .pthreadCreate fd p) (hp : s.entries p = some node)
      (hup' : s'.pc.settingUp = none) (hfree : s'.pc.freeing = none)
      (hthreads : s'.threads = s.threads ++ [⟨p, .init⟩])
      (hvals : SameVals (Function.update s.entries p
        (some { node with val := { node.val with tid := some s.threads.length } })) s'.entries)
      (hopen : s'.openClients = s.openClients) (haccepted : s'.accepted = s.accepted) :
      MainStep s (.int 0) s'
  | noThread {fd : Fd} {p : Nat} {n : Int} (hpc : s.pc = .pthreadCreate fd p) :
      MainStep s (.int n) { s with pc := .freeFailed fd p }
  | freed {r : MainResp} {p : Nat} {s' : Process} (hpc : s.pc.freeing = some p)
      (hup' : s'.pc.settingUp = none) (hfree : s'.pc.freeing = none)
      (hs : s' = { s with pc := s'.pc, entries := Function.update s.entries p none }) :
      MainStep s r s'

section
variable {s s' : Process} {r : MainResp}

theorem Process.joined_eq_some {p : Nat} {n : Int} (h : s.joined p n = some ()) :
    ∃ node tid st, s.entries p = some node ∧ node.val.tid = some tid ∧
      s.threads[tid]? = some st ∧ st.thread.pc = .done := by
  simp only [Process.joined, Option.bind_eq_bind, Option.bind_eq_some_iff] at h
  obtain ⟨node, hnode, tid, htid, st, hst, h⟩ := h
  split at h
  · rename_i hdone
    exact ⟨node, tid, st, hnode, htid, hst, hdone.1⟩
  · cases h

/-- A step that only moves on, to a place where nothing is freed. -/
theorem mainStep_of_pc {pc : MainPc} (hup : s.pc.settingUp = none)
    (hup' : pc.settingUp = none) (hfree : pc.freeing = none) :
    MainStep s r { s with pc } := by
  refine .quiet hup hup' rfl (SameVals.refl _) rfl rfl fun p hp => ?_
  have hp : pc.freeing = some p := hp
  rw [hfree] at hp
  cases hp

/-- **A step of `main`** is one of these. -/
theorem Process.resume_mainStep (h : s.resume r = some s') : MainStep s r s' := by
  have hup : ∀ {pc : MainPc}, s.pc = pc → pc.settingUp = none → s.pc.settingUp = none :=
    fun hpc hnone => by rw [hpc, hnone]
  cases Process.resume_cases h with
  | goOn hpc | noMore hpc | notAccepted hpc | swept hpc | complete hpc | running hpc
  | empty hpc | first hpc => exact mainStep_of_pc (hup hpc rfl) rfl rfl
  | accepted hpc => exact .accepted hpc
  | noMemory hpc => exact .gaveUp hpc
  | entry hpc hp => exact .entry hpc hp rfl
  | created hpc hnode hinsert =>
      exact .thread hpc hnode rfl rfl rfl (slistInsertHead_sameVals hinsert) rfl rfl
  | notCreated hpc => exact .noThread hpc
  | freedFailed hpc | sweepFreed hpc | cleanupFreed hpc =>
      exact .freed (by rw [hpc]; rfl) rfl rfl rfl
  | @sweepJoined p n _ _ hpc hjoin hremove =>
      refine .quiet (hup hpc rfl) rfl rfl (slistRemove_sameVals hremove) rfl rfl ?_
      rintro q ⟨⟩
      exact ⟨n, hjoin⟩
  | @cleanupJoined p n _ hpc hjoin =>
      refine .quiet (hup hpc rfl) rfl rfl (SameVals.refl _) rfl rfl ?_
      rintro q ⟨⟩
      exact ⟨n, hjoin⟩
  | closed hpc =>
      refine .quiet (hup hpc rfl) rfl rfl (SameVals.refl _) ?_ rfl ?_
      · show (s.openFds.erase .hSockfd).countP Fd.isClient = _
        rw [List.countP_erase]
        simp [Fd.isClient, Process.openClients]
      · rintro q ⟨⟩

/-- What a step of a thread does: its entry keeps the descriptor and the
`tid`. -/
theorem Process.threadStep_eq_some {tid : Nat} {resp : Resp} {event : Event}
    (h : s.threadStep tid resp = some (event, s')) :
    ∃ st t call entries, s.threads[tid]? = some st ∧ st.thread.step resp = some (call, t) ∧
      event.closes = none ∧
      s' = { s with entries, threads := s.threads.set tid { st with thread := t } } ∧
      ∀ q node, s.entries q = some node → ∃ node', entries q = some node' ∧
        node'.val.hRecvfd = node.val.hRecvfd ∧ node'.val.tid = node.val.tid := by
  simp only [Process.threadStep, Option.bind_eq_bind, Option.bind_eq_some_iff] at h
  obtain ⟨st, hst, node, hnode, ⟨call, t⟩, hstep, h⟩ := h
  cases h
  refine ⟨st, t, call, _, hst, hstep, rfl, rfl, fun q old hq => ?_⟩
  split
  · by_cases hqp : q = st.pArg
    · subst hqp
      rw [hnode] at hq
      cases hq
      exact ⟨_, Function.update_self .., rfl, rfl⟩
    · exact ⟨old, by rw [Function.update_of_ne hqp, hq], rfl, rfl⟩
  · exact ⟨old, hq, rfl, rfl⟩

end

/-! ## Entries live as long as their threads -/

/-- The entry of a thread that has not ended has its `tid`; the entry that is
being set up or freed is nobody else's. -/
structure Live (s : Process) : Prop where
  own : ∀ (i : Nat) (st : ServiceThread), s.threads[i]? = some st → st.thread.pc ≠ .done →
    ∃ node, s.entries st.pArg = some node ∧ node.val.tid = some i
  setUp : ∀ fd p, s.pc = .pthreadCreate fd p →
    ∃ node, s.entries p = some node ∧ node.val.hRecvfd = fd
  apart : ∀ p, (s.pc.freeing = some p ∨ ∃ fd, s.pc = .pthreadCreate fd p) →
    ∀ (i : Nat) (st : ServiceThread), s.threads[i]? = some st → st.thread.pc ≠ .done →
      st.pArg ≠ p

theorem live_init : Live .init := by
  constructor
  · intro i st hst
    cases hst
  · intro fd p hpc
    cases hpc
  · intro p _ i st hst
    cases hst

section
variable {s s' : Process} {r : MainResp}

theorem live_of_own (hup : s.pc.settingUp = none) (hfree : s.pc.freeing = none)
    (hown : ∀ (i : Nat) (st : ServiceThread), s.threads[i]? = some st →
      st.thread.pc ≠ .done → ∃ node, s.entries st.pArg = some node ∧ node.val.tid = some i) :
    Live s := by
  refine ⟨hown, fun fd p hpc => ?_, ?_⟩
  · rw [hpc] at hup
    cases hup
  · rintro p (hp | ⟨fd, hpc⟩)
    · rw [hfree] at hp
      cases hp
    · rw [hpc] at hup
      cases hup

/-- **A step of `main`** frees only entries whose threads have ended. -/
theorem Live.main (h : Live s) (hs : MainStep s r s') : Live s' := by
  cases hs with
  | quiet hup hup' hthreads hvals hopen haccepted hjoined =>
      refine ⟨fun i st hst hne => ?_, fun fd p hpc => ?_, ?_⟩
      · rw [hthreads] at hst
        obtain ⟨node, hnode, htid⟩ := h.own i st hst hne
        obtain ⟨node', hnode', hval⟩ := hvals.node hnode
        exact ⟨node', hnode', by rw [hval, htid]⟩
      · rw [hpc] at hup'
        cases hup'
      · rintro p (hp | ⟨fd, hpc⟩) i st hst hne rfl
        · -- the entry's thread was joined
          obtain ⟨n, hn⟩ := hjoined _ hp
          obtain ⟨node, tid, st', hnode, htid, hst', hdone⟩ := Process.joined_eq_some hn
          rw [hthreads] at hst
          obtain ⟨node', hnode', htid'⟩ := h.own i st hst hne
          rw [hnode] at hnode'
          cases hnode'
          rw [htid] at htid'
          cases htid'
          rw [hst'] at hst
          cases hst
          exact hne hdone
        · rw [hpc] at hup'
          cases hup'
  | accepted hpc =>
      refine ⟨h.own, fun fd p hpc' => (by cases hpc'), ?_⟩
      rintro p (hp | ⟨fd, hpc'⟩)
      · cases hp
      · cases hpc'
  | gaveUp hpc => exact live_of_own rfl rfl h.own
  | @entry fd p _ hpc hp hs =>
      subst hs
      -- the block was free, so it is no thread's
      have hother : ∀ (i : Nat) (st : ServiceThread), s.threads[i]? = some st →
          st.thread.pc ≠ .done → st.pArg ≠ p := by
        rintro i st hst hne rfl
        obtain ⟨node, hnode, -⟩ := h.own i st hst hne
        rw [hp] at hnode
        cases hnode
      refine ⟨fun i st hst hne => ?_, ?_, ?_⟩
      · obtain ⟨node, hnode, htid⟩ := h.own i st hst hne
        refine ⟨node, ?_, htid⟩
        exact (Function.update_of_ne (hother i st hst hne) ..).trans hnode
      · rintro fd' p' ⟨⟩
        exact ⟨_, Function.update_self .., rfl⟩
      · rintro p' (hp' | ⟨fd', hpc'⟩)
        · cases hp'
        · cases hpc'
          exact hother
  | @thread fd p node _ hpc hp hup' hfree hthreads hvals hopen haccepted =>
      refine live_of_own hup' hfree fun i st hst hne => ?_
      rw [hthreads, List.getElem?_append] at hst
      split at hst
      · rename_i hi
        have hother := h.apart p (.inr ⟨fd, hpc⟩) i st hst hne
        obtain ⟨old, hold, htid⟩ := h.own i st hst hne
        obtain ⟨node', hnode', hval⟩ := hvals.node
          ((Function.update_of_ne hother ..).trans hold)
        exact ⟨node', hnode', by rw [hval, htid]⟩
      · rename_i hi
        rw [List.getElem?_singleton] at hst
        split at hst <;> cases hst
        obtain ⟨node', hnode', hval⟩ := hvals.node (Function.update_self ..)
        refine ⟨node', hnode', ?_⟩
        rw [hval, show i = s.threads.length by omega]
  | @noThread fd p n hpc =>
      refine ⟨h.own, fun fd' p' hpc' => (by cases hpc'), ?_⟩
      rintro p' (hp' | ⟨fd', hpc'⟩)
      · cases hp'
        exact h.apart p (.inr ⟨fd, hpc⟩)
      · cases hpc'
  | @freed _ p _ hpc hup' hfree hs =>
      refine live_of_own hup' hfree fun i st hst hne => ?_
      rw [hs] at hst ⊢
      obtain ⟨node, hnode, htid⟩ := h.own i st hst hne
      refine ⟨node, ?_, htid⟩
      exact (Function.update_of_ne (h.apart p (.inl hpc) i st hst hne) ..).trans hnode

/-- **A step of a thread** leaves the entries to their threads. -/
theorem Live.threadStep (h : Live s) {tid : Nat} {resp : Resp} {event : Event}
    (hs : s.threadStep tid resp = some (event, s')) : Live s' := by
  obtain ⟨st, t, call, entries, hst, hstep, -, rfl, hkeep⟩ := Process.threadStep_eq_some hs
  -- a thread of the new state was one before, with the same entry
  have hwas : ∀ (i : Nat) (st' : ServiceThread),
      (s.threads.set tid { st with thread := t })[i]? = some st' →
      st'.thread.pc ≠ .done → ∃ st₀, s.threads[i]? = some st₀ ∧ st₀.thread.pc ≠ .done ∧
        st₀.pArg = st'.pArg := by
    intro i st' hst' hne
    rw [List.getElem?_set] at hst'
    split at hst'
    · rename_i hi
      subst hi
      split at hst' <;> cases hst'
      exact ⟨st, hst, Thread.step_ne_done hstep, rfl⟩
    · exact ⟨st', hst', hne, rfl⟩
  refine ⟨fun i st' hst' hne => ?_, fun fd p hpc => ?_, fun p hp i st' hst' hne => ?_⟩
  · obtain ⟨st₀, hst₀, hne₀, harg⟩ := hwas i st' hst' hne
    obtain ⟨node, hnode, htid⟩ := h.own i st₀ hst₀ hne₀
    rw [harg] at hnode
    obtain ⟨node', hnode', -, htid'⟩ := hkeep _ _ hnode
    exact ⟨node', hnode', by rw [htid', htid]⟩
  · obtain ⟨node, hnode, hfd⟩ := h.setUp fd p hpc
    obtain ⟨node', hnode', hfd', -⟩ := hkeep _ _ hnode
    exact ⟨node', hnode', by rw [hfd', hfd]⟩
  · obtain ⟨st₀, hst₀, hne₀, harg⟩ := hwas i st' hst' hne
    rw [← harg]
    exact h.apart p hp i st₀ hst₀ hne₀

/-- **Every entry lives as long as its thread.** -/
theorem Live.step (h : Live s) {act : ProcessAct} {out : Option Event}
    (hs : s.step act = some (out, s')) : Live s' := by
  cases act with
  | main r =>
      simp only [Process.step, Option.bind_eq_bind, Option.bind_eq_some_iff] at hs
      obtain ⟨t, ht, hs⟩ := hs
      cases hs
      exact h.main (Process.resume_mainStep ht)
  | thread tid r =>
      simp only [Process.step, Option.bind_eq_bind, Option.bind_eq_some_iff] at hs
      obtain ⟨⟨event, t⟩, ht, hs⟩ := hs
      cases hs
      exact h.threadStep ht
  | signal =>
      cases hs
      exact ⟨h.own, h.setUp, h.apart⟩

end

/-! ## The balance of a step -/

section
variable {s s' : Process} {r : MainResp}

/-- The last step of a connection by `main` is one in which it sets one up. -/
theorem endsConnection_of_settingUp (hup : s.pc.settingUp = none) (r : MainResp) :
    s.endsConnection (.main r) = false := by
  unfold Process.endsConnection
  dsimp only
  split
  · rename_i hpc
    rw [hpc] at hup
    cases hup
  · rename_i hpc
    rw [hpc] at hup
    cases hup
  · rfl

/-- **The balance of `main`**: it has the connections it accepts until they are
a thread's, or end. -/
theorem MainStep.balance (hs : MainStep s r s') :
    s'.owned + (if s.endsConnection (.main r) then 1 else 0) + s.accepted
      = s.owned + s'.accepted := by
  cases hs with
  | quiet hup hup' hthreads hvals hopen haccepted hjoined =>
      rw [endsConnection_of_settingUp hup]
      simp [Process.owned, Process.unfinished, hup, hup', hthreads, haccepted]
  | accepted hpc =>
      simp only [Process.endsConnection, Process.owned, Process.unfinished, Process.accept,
        hpc, MainPc.settingUp]
      simp
      omega
  | gaveUp hpc =>
      simp [Process.endsConnection, Process.owned, Process.unfinished, Process.startSweep,
        hpc, MainPc.settingUp]
  | entry hpc hp hs =>
      subst hs
      simp [Process.endsConnection, Process.owned, Process.unfinished, hpc,
        MainPc.settingUp]
  | thread hpc hp hup' hfree hthreads hvals hopen haccepted =>
      unfold Process.owned Process.unfinished
      rw [hup', hthreads, haccepted]
      simp [Process.endsConnection, hpc, MainPc.settingUp, Thread.init]
  | noThread hpc =>
      simp [Process.endsConnection, Process.owned, Process.unfinished, hpc,
        MainPc.settingUp]
  | freed hpc hup' hfree hs =>
      have hthreads : s'.threads = s.threads := by rw [hs]
      have haccepted : s'.accepted = s.accepted := by rw [hs]
      unfold Process.owned Process.unfinished
      rw [hup', hthreads, haccepted]
      unfold Process.endsConnection
      cases hq : s.pc <;> rw [hq] at hpc <;> cases hpc <;> simp [MainPc.settingUp]

theorem MainStep.openClients (hs : MainStep s r s') :
    s'.openClients + s.accepted = s.openClients + s'.accepted := by
  cases hs with
  | quiet hup hup' hthreads hvals hopen haccepted hjoined => rw [hopen, haccepted]
  | accepted hpc =>
      simp only [Process.openClients, Process.accept]
      rw [List.countP_cons_of_pos rfl]
      omega
  | gaveUp hpc => rfl
  | entry hpc hp hs =>
      subst hs
      rfl
  | thread hpc hp hup' hfree hthreads hvals hopen haccepted => rw [hopen, haccepted]
  | noThread hpc => rfl
  | freed hpc hup' hfree hs =>
      rw [hs]
      rfl

/-- **The balance of a thread**: it has its connection until it ends. -/
theorem Process.threadStep_balance {tid : Nat} {resp : Resp} {event : Event}
    (hs : s.threadStep tid resp = some (event, s')) :
    s'.owned + (if s.endsConnection (.thread tid resp) then 1 else 0) = s.owned := by
  obtain ⟨st, t, call, entries, hst, hstep, -, rfl, -⟩ := Process.threadStep_eq_some hs
  have hends : s.endsConnection (.thread tid resp) = st.thread.pc.exits resp := by
    simp only [Process.endsConnection, hst]
  have hdone := Thread.step_done_iff hstep
  have hne := Thread.step_ne_done hstep
  obtain ⟨hlt, hget⟩ := List.getElem?_eq_some_iff.mp hst
  have hpos : 0 < s.threads.countP fun st => st.thread.pc ≠ .done := by
    rw [List.countP_pos_iff]
    exact ⟨st, List.mem_of_getElem? hst, by simpa using hne⟩
  unfold Process.owned Process.unfinished
  rw [hends, List.countP_set hlt, hget]
  generalize s.threads.countP _ = k at hpos ⊢
  simp only [hne, ne_eq, not_false_eq_true, decide_true, if_true]
  by_cases hexit : st.thread.pc.exits resp = true
  · simp only [hexit, hdone.mpr hexit, not_true_eq_false, decide_false, Bool.false_eq_true,
      if_false, if_true]
    omega
  · have hgoes : t.pc ≠ .done := fun hd => hexit (hdone.mp hd)
    simp only [hexit, hgoes, not_false_eq_true, decide_true, Bool.false_eq_true, if_false,
      if_true]
    omega

/-- **Where a connection goes in `main`**: from `accept` to its set-up and on to
a thread, if the step is not its last. -/
theorem MainStep.inUse (hs : MainStep s r s') (hlive : Live s)
    (hends : s.endsConnection (.main r) = false) {n : Nat} (hn : n < s'.accepted)
    (h : n < s.accepted → s.InUse n) : s'.InUse n := by
  cases hs with
  | quiet hup hup' hthreads hvals hopen haccepted hjoined =>
      rcases h (haccepted ▸ hn) with hset | ⟨st, hmem, hne, node, hnode, hfd⟩
      · rw [hup] at hset
        cases hset
      · obtain ⟨node', hnode', hval⟩ := hvals.node hnode
        exact .inr ⟨st, hthreads ▸ hmem, hne, node', hnode', by rw [hval, hfd]⟩
  | accepted hpc =>
      have hn : n < s.accepted + 1 := hn
      by_cases hlt : n < s.accepted
      · rcases h hlt with hset | hserved
        · rw [hpc] at hset
          cases hset
        · exact .inr hserved
      · -- the connection that was accepted just now
        obtain rfl : n = s.accepted := by omega
        exact .inl rfl
  | gaveUp hpc =>
      unfold Process.endsConnection at hends
      rw [hpc] at hends
      cases hends
  | @entry fd p _ hpc hp hs =>
      subst hs
      rcases h hn with hset | ⟨st, hmem, hne, node, hnode, hfd⟩
      · rw [hpc] at hset
        exact .inl hset
      · have hother : st.pArg ≠ p := by
          rintro rfl
          rw [hp] at hnode
          cases hnode
        exact .inr ⟨st, hmem, hne, node,
          (Function.update_of_ne hother ..).trans hnode, hfd⟩
  | @thread fd p node _ hpc hp hup' hfree hthreads hvals hopen haccepted =>
      rcases h (haccepted ▸ hn) with hset | ⟨st, hmem, hne, old, hold, hfd⟩
      · -- the thread that is created has it
        rw [hpc] at hset
        cases hset
        obtain ⟨node₀, hnode₀, hfd⟩ := hlive.setUp _ _ hpc
        rw [hp] at hnode₀
        cases hnode₀
        obtain ⟨node', hnode', hval⟩ := hvals.node (Function.update_self ..)
        refine .inr ⟨⟨p, .init⟩, by simp [hthreads], ?_, node', hnode', by rw [hval, hfd]⟩
        simp [Thread.init]
      · obtain ⟨i, hi⟩ := List.mem_iff_getElem?.mp hmem
        have hother := hlive.apart p (.inr ⟨fd, hpc⟩) i st hi hne
        obtain ⟨node', hnode', hval⟩ := hvals.node
          ((Function.update_of_ne hother ..).trans hold)
        exact .inr ⟨st, by simp [hthreads, hmem], hne, node', hnode', by rw [hval, hfd]⟩
  | noThread hpc =>
      rcases h hn with hset | hserved
      · rw [hpc] at hset
        exact .inl hset
      · exact .inr hserved
  | @freed _ p _ hpc hup' hfree hs =>
      have hset : s.pc.settingUp = none := by
        unfold Process.endsConnection at hends
        cases hq : s.pc <;> rw [hq] at hpc hends <;> cases hpc <;> first | rfl | cases hends
      rw [hs] at hn ⊢
      rcases h hn with hset' | ⟨st, hmem, hne, node, hnode, hfd⟩
      · rw [hset] at hset'
        cases hset'
      · obtain ⟨i, hi⟩ := List.mem_iff_getElem?.mp hmem
        have hother := hlive.apart p (.inl hpc) i st hi hne
        exact .inr ⟨st, hmem, hne, node, (Function.update_of_ne hother ..).trans hnode, hfd⟩

theorem Process.threadStep_inUse {tid : Nat} {resp : Resp} {event : Event}
    (hs : s.threadStep tid resp = some (event, s'))
    (hends : s.endsConnection (.thread tid resp) = false) {n : Nat} (h : s.InUse n) :
    s'.InUse n := by
  obtain ⟨st, t, call, entries, hst, hstep, -, rfl, hkeep⟩ := Process.threadStep_eq_some hs
  have hgoes : t.pc ≠ .done := by
    intro hdone
    have hexit := (Thread.step_done_iff hstep).mp hdone
    simp only [Process.endsConnection, hst, hexit] at hends
    cases hends
  rcases h with hset | ⟨st₀, hmem, hne, node, hnode, hfd⟩
  · exact .inl hset
  · obtain ⟨node', hnode', hfd', -⟩ := hkeep _ _ hnode
    right
    obtain ⟨i, hi⟩ := List.mem_iff_getElem?.mp hmem
    obtain ⟨hlt, -⟩ := List.getElem?_eq_some_iff.mp hi
    by_cases htid : tid = i
    · subst htid
      rw [hst] at hi
      cases hi
      refine ⟨{ st with thread := t }, ?_, hgoes, node', hnode', by rw [hfd', hfd]⟩
      exact List.mem_of_getElem? (i := tid) (by simp [hlt])
    · refine ⟨st₀, ?_, hne, node', hnode', by rw [hfd', hfd]⟩
      exact List.mem_of_getElem? (i := i) (by simp [htid, hi])

end

/-! ## Runs -/

/-- **The books of a run**: what was accepted is open, owned or ended, and
nothing of it was closed; as long as no connection has ended, each is in use. -/
structure Books (acts : List ProcessAct) (outs : List (Option Event)) (s : Process) :
    Prop where
  live : Live s
  opened : s.openClients = s.accepted
  unclosed : ∀ n, closings outs n = 0
  owned : s.owned ≤ s.accepted
  ended : s.owned = s.accepted ↔
    EachStep Process.step (fun s act _ _ => s.endsConnection act = false) .init acts
  used : EachStep Process.step (fun s act _ _ => s.endsConnection act = false) .init acts →
    ∀ n < s.accepted, s.InUse n

section
variable {acts : List ProcessAct} {outs : List (Option Event)} {s s' : Process}
  {act : ProcessAct} {out : Option Event}

theorem books_init : Books [] [] .init where
  live := live_init
  opened := rfl
  unclosed := fun _ => rfl
  owned := Nat.le_refl 0
  ended := ⟨fun _ => trivial, fun _ => rfl⟩
  used := fun _ n hn => absurd hn (Nat.not_lt_zero n)

/-- What one step adds to the books. -/
structure Balances (s : Process) (act : ProcessAct) (out : Option Event) (s' : Process) :
    Prop where
  owned : s'.owned + (if s.endsConnection act then 1 else 0) + s.accepted
    = s.owned + s'.accepted
  opened : s'.openClients + s.accepted = s.openClients + s'.accepted
  unclosed : ∀ n, out.bind Event.closes ≠ some (.client n)
  used : Live s → s.endsConnection act = false →
    ∀ n < s'.accepted, (n < s.accepted → s.InUse n) → s'.InUse n

theorem Process.mainCall_closes {n : Nat} :
    (s.mainCall.map Event.main).bind Event.closes ≠ some (.client n) := by
  unfold Process.mainCall
  dsimp only
  split <;> simp [Event.closes]

theorem Process.step_balances (hs : s.step act = some (out, s')) :
    Balances s act out s' := by
  cases act with
  | main r =>
      simp only [Process.step, Option.bind_eq_bind, Option.bind_eq_some_iff] at hs
      obtain ⟨t, ht, hs⟩ := hs
      cases hs
      have hstep := Process.resume_mainStep ht
      exact ⟨hstep.balance, hstep.openClients, fun n => Process.mainCall_closes,
        fun hlive hends n hn hold => hstep.inUse hlive hends hn hold⟩
  | thread tid r =>
      simp only [Process.step, Option.bind_eq_bind, Option.bind_eq_some_iff] at hs
      obtain ⟨⟨event, t⟩, ht, hs⟩ := hs
      obtain ⟨rfl, rfl⟩ : some event = out ∧ t = s' := by simpa using hs
      have hbalance := Process.threadStep_balance ht
      obtain ⟨_, _, _, _, -, -, hcloses, heq, -⟩ := Process.threadStep_eq_some ht
      have haccepted : t.accepted = s.accepted := by rw [heq]
      have hopen : t.openClients = s.openClients := by
        rw [heq]
        rfl
      refine ⟨by omega, by omega, fun n => by simp [hcloses], ?_⟩
      intro _ hends n hn hold
      exact Process.threadStep_inUse ht hends (hold (haccepted ▸ hn))
  | signal =>
      cases hs
      exact ⟨rfl, rfl, fun n => by simp, fun _ _ n hn hold => hold hn⟩

theorem Books.step (h : Books acts outs s)
    (hrun : run Process.step .init acts = some (outs, s))
    (hs : s.step act = some (out, s')) : Books (acts ++ [act]) (outs ++ [out]) s' := by
  have hb := Process.step_balances hs
  have hle := h.owned
  have hopened := h.opened
  have hended := h.ended
  have hsnoc := eachStep_snoc (P := fun s act _ _ => s.endsConnection act = false) hrun hs
  have howned := hb.owned
  have hopen := hb.opened
  refine ⟨h.live.step hs, by omega, fun n => ?_, by omega, ?_, ?_⟩
  · have hzero := h.unclosed n
    unfold closings at hzero ⊢
    rw [List.countP_append, hzero, List.countP_singleton]
    simp [hb.unclosed n]
  · rw [hsnoc, ← hended]
    cases hends : s.endsConnection act with
    | false =>
        rw [hends] at howned
        simp only [Bool.false_eq_true, if_false] at howned
        simp only [and_true]
        omega
    | true =>
        rw [hends] at howned
        simp only [if_true] at howned
        simp only [Bool.true_eq_false, and_false, iff_false]
        omega
  · intro heach n hn
    obtain ⟨hbefore, hends⟩ := hsnoc.mp heach
    exact hb.used h.live hends n hn (h.used hbefore n)

/-- **The books of every run.** -/
theorem run_books (h : run Process.step .init acts = some (outs, s)) : Books acts outs s :=
  run_history (P := Books) books_init
    (fun _ _ _ _ _ _ hrun hbooks hs => hbooks.step hrun hs) h

end

/-- **The rule holds exactly until a connection ends**: in the states of a run
up to the first `malloc` that fails, entry that is freed for want of a thread,
or thread that ends, whichever comes first, and in none after. -/
theorem descriptors_closed_iff {acts : List ProcessAct} {outs : List (Option Event)}
    {s : Process} (h : run Process.step .init acts = some (outs, s)) :
    ClosedOnce outs s ↔
      EachStep Process.step (fun s act _ _ => s.endsConnection act = false) .init acts := by
  have hb := run_books h
  rw [← hb.ended]
  constructor
  · intro hclosed
    have hbounded := hclosed.bounded
    rw [hb.opened] at hbounded
    exact Nat.le_antisymm hb.owned hbounded
  · intro howned
    have hused := hb.used (hb.ended.mp howned)
    refine ⟨fun n hn => ?_, fun n hn hfree => absurd (hused n hn) hfree, ?_⟩
    · rw [hb.unclosed]
      exact Nat.zero_le 1
    · rw [hb.opened, howned]

/-- A client that connects and gets its thread. -/
theorem descriptors_closed_iff_one_client : ∃ outs s,
    run Process.step .init [.main .turn, .main .descriptor, .main (.block 0), .main (.int 0)]
      = some (outs, s) ∧
    (ClosedOnce outs s ↔
      EachStep Process.step (fun s act _ _ => s.endsConnection act = false) .init
        [.main .turn, .main .descriptor, .main (.block 0), .main (.int 0)]) :=
  ⟨_, _, rfl, descriptors_closed_iff rfl⟩

/-- The client then closes the connection. -/
theorem closed_connection_leaks :
    ¬ ∀ acts outs s, run Process.step .init acts = some (outs, s) → ClosedOnce outs s := by
  intro hall
  have h : (run Process.step .init [.main .turn, .main .descriptor, .main (.block 0),
      .main (.int 0), .thread 0 .nonNull, .thread 0 (.int 0)]).map
        (fun p => (p.2.openClients, p.2.owned)) = some (1, 0) := by decide
  obtain ⟨⟨outs, s⟩, hrun, heq⟩ := Option.map_eq_some_iff.mp h
  simp only [Prod.mk.injEq] at heq
  have hbounded := (hall _ outs s hrun).bounded
  rw [heq.1, heq.2] at hbounded
  exact absurd hbounded (by decide)

end Aesd.Server
