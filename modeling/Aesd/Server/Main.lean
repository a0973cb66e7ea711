import Aesd.Server.Thread
import Aesd.Lib.Slist

/-!
# The accept loop

`main` of `server/aesdsocket.c` from `SLIST_INIT` on, with the service threads
it creates, as a machine. A step of `main` goes on from one library call, or
one turn of a loop, to the next; a step of a thread is one call of it; and a
signal may come at any time. The calls' results are inputs, the calls
themselves outputs.

A descriptor is named by the `accept` that returned it, as the kernel may use
its number again once it is closed. What a thread does to the data file, and
the mutex, are results like any other here.
-/

namespace Aesd.Server

open Aesd.Lib

/-- A descriptor: the socket that listens, or what the `n`-th `accept`
returned. -/
inductive Fd where
  | hSockfd
  | client (n : Nat)
  deriving DecidableEq, Repr

/-- `struct thread_args_s`, less the client's address and the mutex. `tid` is
`none` before `pthread_create` stores it. -/
structure ThreadArgs where
  hRecvfd : Fd
  bIsThreadComplete : Bool
  tid : Option Nat
  deriving DecidableEq, Repr

/-- A thread, with its argument: the entry on the list that is its own. -/
structure ServiceThread where
  pArg : Nat
  thread : Thread
  deriving DecidableEq, Repr

/-- Where `main` is: the head of a loop, or a call it waits for. -/
inductive MainPc where
  | loop
  | accept
  | malloc (hRecvfd : Fd)
  | pthreadCreate (hRecvfd : Fd) (pSlistEntry : Nat)
  | freeFailed (hRecvfd : Fd) (pSlistEntry : Nat)
  | sweep (pSlistEntry : Option Nat)
  | sweepJoin (pSlistEntry : Nat)
  | sweepFree (pSlistEntry : Nat)
  | cleanup
  | cleanupJoin (pSlistEntry : Nat)
  | cleanupFree (pSlistEntry : Nat)
  | close
  | done (ret : Int)
  deriving DecidableEq, Repr

/-- The process: `main`, the list and its entries, the threads by `tid`, and
the kernel's table of open descriptors. -/
structure Process where
  pc : MainPc
  bAcceptConnections : Bool
  slhFirst : Option Nat
  entries : Nodes ThreadArgs
  threads : List ServiceThread
  openFds : List Fd
  accepted : Nat

/-- The process before its first `accept`. -/
def Process.init : Process where
  pc := .loop
  bAcceptConnections := true
  slhFirst := none
  entries := fun _ => none
  threads := []
  openFds := [.hSockfd]
  accepted := 0

/-- A library call of `main`. -/
inductive MainCall where
  | accept (fd : Fd)
  | malloc
  | pthreadCreate (arg : Nat)
  | pthreadJoin (tid : Option Nat)
  | free (p : Nat)
  | close (fd : Fd)
  deriving DecidableEq, Repr

/-- What lets `main` go on: nothing but its turn, an `int`, a descriptor, a null
pointer or a block, and after a `free` the link that is then read in the
block. -/
inductive MainResp where
  | turn
  | int (n : Int)
  | descriptor
  | null
  | block (p : Nat)
  | link (next : Option Nat)
  deriving DecidableEq, Repr

/-- The call `main` waits for. -/
def Process.mainCall (s : Process) : Option MainCall :=
  let tid p := (s.entries p).bind fun node => node.val.tid
  match s.pc with
  | .accept => some (.accept .hSockfd)
  | .malloc _ => some .malloc
  | .pthreadCreate _ p => some (.pthreadCreate p)
  | .sweepJoin p | .cleanupJoin p => some (.pthreadJoin (tid p))
  | .freeFailed _ p | .sweepFree p | .cleanupFree p => some (.free p)
  | .close => some (.close .hSockfd)
  | .loop | .sweep _ | .cleanup | .done _ => none

/-! ## From one call to the next -/

/-- `free(p)`. -/
def Process.free (s : Process) (p : Nat) : Option Process := do
  let _ ← s.entries p
  return { s with entries := Function.update s.entries p none }

/-- To the head of the sweep's loop. -/
def Process.startSweep (s : Process) : Process :=
  { s with pc := .sweep s.slhFirst }

/-- `accept` returned a descriptor. -/
def Process.accept (s : Process) : Process :=
  { s with
    pc := .malloc (.client s.accepted)
    openFds := .client s.accepted :: s.openFds
    accepted := s.accepted + 1 }

/-- `malloc` returned a block: the arguments of the thread are stored in it. -/
def Process.newEntry (s : Process) (hRecvfd : Fd) (p : Nat) : Option Process :=
  if (s.entries p).isNone then
    some { s with
      pc := .pthreadCreate hRecvfd p
      entries := Function.update s.entries p (some ⟨⟨hRecvfd, false, none⟩, none⟩) }
  else none

/-- `pthread_create` stored the `tid` and started the thread; its entry goes
on the list. -/
def Process.newThread (s : Process) (p : Nat) : Option Process := do
  let node ← s.entries p
  let entries := Function.update s.entries p
    (some { node with val := { node.val with tid := some s.threads.length } })
  let (entries, slhFirst) ← slistInsertHead entries s.slhFirst p
  return Process.startSweep { s with
    slhFirst, entries, threads := s.threads ++ [⟨p, .init⟩] }

/-- `pthread_join` returns 0 once the thread of the entry has ended. -/
def Process.joined (s : Process) (p : Nat) (n : Int) : Option Unit := do
  let node ← s.entries p
  let tid ← node.val.tid
  let st ← s.threads[tid]?
  if st.thread.pc = .done ∧ n = 0 then some () else none

/-- `main` goes on with the result of its call. -/
def Process.resume (s : Process) (r : MainResp) : Option Process :=
  match s.pc, r with
  | .loop, .turn =>
      some { s with pc := if s.bAcceptConnections then .accept else .cleanup }
  | .accept, .int n => if n = -1 then some { s with pc := .cleanup } else none
  | .accept, .descriptor => some s.accept
  | .malloc _, .null => some s.startSweep
  | .malloc hRecvfd, .block p => s.newEntry hRecvfd p
  | .pthreadCreate hRecvfd p, .int n =>
      if n = 0 then s.newThread p else some { s with pc := .freeFailed hRecvfd p }
  | .freeFailed _ p, .turn => do
      let s ← s.free p
      return s.startSweep
  | .sweep none, .turn => some { s with pc := .loop }
  | .sweep (some p), .turn => do
      let node ← s.entries p
      return { s with
        pc := if node.val.bIsThreadComplete then .sweepJoin p else .sweep node.next }
  | .sweepJoin p, .int n => do
      s.joined p n
      let (entries, slhFirst) ← slistRemove s.entries s.slhFirst p s.threads.length
      return { s with pc := .sweepFree p, entries, slhFirst }
  | .sweepFree p, .link next => do
      -- `SLIST_NEXT` reads the entry after its `free`
      let s ← s.free p
      return { s with pc := .sweep next }
  | .cleanup, .turn =>
      some { s with pc := match s.slhFirst with
        | none => .close
        | some p => .cleanupJoin p }
  | .cleanupJoin p, .int n => do
      s.joined p n
      let slhFirst ← slistRemoveHead s.entries s.slhFirst
      return { s with pc := .cleanupFree p, slhFirst }
  | .cleanupFree p, .turn => do
      let s ← s.free p
      return { s with pc := .cleanup }
  | .close, .int _ =>
      some { s with
        pc := .done (if s.bAcceptConnections then -1 else 0)
        openFds := s.openFds.erase .hSockfd }
  | _, _ => none

/-- A call of `main`, or one of a thread on the descriptor in its entry. -/
inductive Event where
  | main (call : MainCall)
  | thread (tid : Nat) (hRecvfd : Fd) (call : Call)
  deriving DecidableEq, Repr

/-- A step: `main` goes on, a thread's call returns, or a signal arrives. -/
inductive ProcessAct where
  | main (r : MainResp)
  | thread (tid : Nat) (r : Resp)
  | signal

/-- A call of a thread returned. The thread that ends sets the flag in its
entry. -/
def Process.threadStep (s : Process) (tid : Nat) (r : Resp) : Option (Event × Process) := do
  let st ← s.threads[tid]?
  let node ← s.entries st.pArg
  let (call, thread) ← st.thread.step r
  let entries :=
    if thread.pc = .done then
      Function.update s.entries st.pArg
        (some { node with val := { node.val with bIsThreadComplete := true } })
    else s.entries
  return (.thread tid node.val.hRecvfd call,
    { s with entries, threads := s.threads.set tid { st with thread } })

/-- One step of the process. -/
def Process.step (s : Process) : ProcessAct → Option (Option Event × Process)
  | .main r => do
      let s' ← s.resume r
      return (s.mainCall.map .main, s')
  | .thread tid r => do
      let (event, s) ← s.threadStep tid r
      return (some event, s)
  | .signal => some (none, { s with bAcceptConnections := false })

/-! ## What a step of `main` can do -/

/-- A step of `main`, by where it is and the result it goes on with. -/
inductive MainBranch (s : Process) : MainResp → Process → Prop where
  | goOn (hpc : s.pc = .loop) (hflag : s.bAcceptConnections = true) :
      MainBranch s .turn { s with pc := .accept }
  | noMore (hpc : s.pc = .loop) (hflag : s.bAcceptConnections = false) :
      MainBranch s .turn { s with pc := .cleanup }
  | notAccepted (hpc : s.pc = .accept) : MainBranch s (.int (-1)) { s with pc := .cleanup }
  | accepted (hpc : s.pc = .accept) : MainBranch s .descriptor s.accept
  | noMemory {fd : Fd} (hpc : s.pc = .malloc fd) : MainBranch s .null s.startSweep
  | entry {fd : Fd} {p : Nat} (hpc : s.pc = .malloc fd) (hp : s.entries p = none) :
      MainBranch s (.block p) { s with
        pc := .pthreadCreate fd p
        entries := Function.update s.entries p (some ⟨⟨fd, false, none⟩, none⟩) }
  | created {fd : Fd} {p : Nat} {node : Node ThreadArgs} {entries : Nodes ThreadArgs}
      {slhFirst : Option Nat} (hpc : s.pc = .pthreadCreate fd p)
      (hnode : s.entries p = some node)
      (hinsert : slistInsertHead (Function.update s.entries p
        (some { node with val := { node.val with tid := some s.threads.length } }))
        s.slhFirst p = some (entries, slhFirst)) :
      MainBranch s (.int 0) { s with
        pc := .sweep slhFirst, slhFirst, entries, threads := s.threads ++ [⟨p, .init⟩] }
  | notCreated {fd : Fd} {p : Nat} {n : Int} (hpc : s.pc = .pthreadCreate fd p)
      (hn : n ≠ 0) : MainBranch s (.int n) { s with pc := .freeFailed fd p }
  | freedFailed {fd : Fd} {p : Nat} {node : Node ThreadArgs}
      (hpc : s.pc = .freeFailed fd p) (hnode : s.entries p = some node) :
      MainBranch s .turn { s with
        pc := .sweep s.slhFirst, entries := Function.update s.entries p none }
  | swept (hpc : s.pc = .sweep none) : MainBranch s .turn { s with pc := .loop }
  | complete {p : Nat} {node : Node ThreadArgs} (hpc : s.pc = .sweep (some p))
      (hnode : s.entries p = some node) (hc : node.val.bIsThreadComplete = true) :
      MainBranch s .turn { s with pc := .sweepJoin p }
  | running {p : Nat} {node : Node ThreadArgs} (hpc : s.pc = .sweep (some p))
      (hnode : s.entries p = some node) (hc : node.val.bIsThreadComplete = false) :
      MainBranch s .turn { s with pc := .sweep node.next }
  | sweepJoined {p : Nat} {n : Int} {entries : Nodes ThreadArgs} {slhFirst : Option Nat}
      (hpc : s.pc = .sweepJoin p) (hjoin : s.joined p n = some ())
      (hremove : slistRemove s.entries s.slhFirst p s.threads.length
        = some (entries, slhFirst)) :
      MainBranch s (.int n) { s with pc := .sweepFree p, entries, slhFirst }
  | sweepFreed {p : Nat} {node : Node ThreadArgs} {next : Option Nat}
      (hpc : s.pc = .sweepFree p) (hnode : s.entries p = some node) :
      MainBranch s (.link next) { s with
        pc := .sweep next, entries := Function.update s.entries p none }
  | empty (hpc : s.pc = .cleanup) (hfirst : s.slhFirst = none) :
      MainBranch s .turn { s with pc := .close }
  | first {p : Nat} (hpc : s.pc = .cleanup) (hfirst : s.slhFirst = some p) :
      MainBranch s .turn { s with pc := .cleanupJoin p }
  | cleanupJoined {p : Nat} {n : Int} {slhFirst : Option Nat} (hpc : s.pc = .cleanupJoin p)
      (hjoin : s.joined p n = some ())
      (hremove : slistRemoveHead s.entries s.slhFirst = some slhFirst) :
      MainBranch s (.int n) { s with pc := .cleanupFree p, slhFirst }
  | cleanupFreed {p : Nat} {node : Node ThreadArgs} (hpc : s.pc = .cleanupFree p)
      (hnode : s.entries p = some node) :
      MainBranch s .turn { s with
        pc := .cleanup, entries := Function.update s.entries p none }
  | closed {n : Int} (hpc : s.pc = .close) :
      MainBranch s (.int n) { s with
        pc := .done (if s.bAcceptConnections then -1 else 0)
        openFds := s.openFds.erase .hSockfd }

section
variable {s s' : Process} {r : MainResp}

theorem Process.free_eq_some {p : Nat} (h : s.free p = some s') :
    ∃ node, s.entries p = some node ∧
      s' = { s with entries := Function.update s.entries p none } := by
  simp only [Process.free, Option.bind_eq_bind, Option.bind_eq_some_iff] at h
  obtain ⟨node, hnode, h⟩ := h
  cases h
  exact ⟨node, hnode, rfl⟩

/-- **A step of `main`** is one of these. -/
theorem Process.resume_cases (h : s.resume r = some s') : MainBranch s r s' := by
  unfold Process.resume at h
  cases hpc : s.pc <;> rw [hpc] at h <;> cases r
  case loop.turn =>
    by_cases hflag : s.bAcceptConnections = true
    · rw [if_pos hflag] at h
      cases h
      exact .goOn hpc hflag
    · rw [if_neg hflag] at h
      cases h
      exact .noMore hpc (by simpa using hflag)
  case accept.int n =>
    dsimp only at h
    split at h <;> cases h
    rename_i hn
    subst hn
    exact .notAccepted hpc
  case accept.descriptor =>
    cases h
    exact .accepted hpc
  case malloc.null fd =>
    cases h
    exact .noMemory hpc
  case malloc.block fd p =>
    dsimp only [Process.newEntry] at h
    split at h <;> cases h
    rename_i hp
    exact .entry hpc (Option.isNone_iff_eq_none.mp hp)
  case pthreadCreate.int fd p n =>
    dsimp only at h
    split at h
    · rename_i hn
      subst hn
      simp only [Process.newThread, Option.bind_eq_bind, Option.bind_eq_some_iff] at h
      obtain ⟨node, hnode, ⟨entries, first⟩, hinsert, h⟩ := h
      cases h
      exact .created hpc hnode hinsert
    · rename_i hn
      cases h
      exact .notCreated hpc hn
  case freeFailed.turn fd p =>
    obtain ⟨t, ht, h⟩ := Option.bind_eq_some_iff.mp h
    obtain ⟨node, hnode, rfl⟩ := Process.free_eq_some ht
    cases h
    exact .freedFailed hpc hnode
  case sweep.turn next =>
    cases next with
    | none =>
        cases h
        exact .swept hpc
    | some p =>
        obtain ⟨node, hnode, h⟩ := Option.bind_eq_some_iff.mp h
        cases h
        cases hc : node.val.bIsThreadComplete with
        | true => exact .complete hpc hnode hc
        | false => exact .running hpc hnode hc
  case sweepJoin.int p n =>
    simp only [Option.bind_eq_bind, Option.bind_eq_some_iff] at h
    obtain ⟨⟨⟩, hjoin, ⟨entries, first⟩, hremove, h⟩ := h
    cases h
    exact .sweepJoined hpc hjoin hremove
  case sweepFree.link p next =>
    obtain ⟨t, ht, h⟩ := Option.bind_eq_some_iff.mp h
    obtain ⟨node, hnode, rfl⟩ := Process.free_eq_some ht
    cases h
    exact .sweepFreed hpc hnode
  case cleanup.turn =>
    dsimp only at h
    split at h
    · rename_i hfirst
      cases h
      exact .empty hpc hfirst
    · rename_i p hfirst
      cases h
      exact .first hpc hfirst
  case cleanupJoin.int p n =>
    simp only [Option.bind_eq_bind, Option.bind_eq_some_iff] at h
    obtain ⟨⟨⟩, hjoin, first, hremove, h⟩ := h
    cases h
    exact .cleanupJoined hpc hjoin hremove
  case cleanupFree.turn p =>
    obtain ⟨t, ht, h⟩ := Option.bind_eq_some_iff.mp h
    obtain ⟨node, hnode, rfl⟩ := Process.free_eq_some ht
    cases h
    exact .cleanupFreed hpc hnode
  case close.int n =>
    cases h
    exact .closed hpc
  case sweep.int next n => cases next <;> cases h
  case sweep.descriptor next => cases next <;> cases h
  case sweep.null next => cases next <;> cases h
  case sweep.block next p => cases next <;> cases h
  case sweep.link next link => cases next <;> cases h
  all_goals cases h

theorem MainBranch.resume (h : MainBranch s r s') : s.resume r = some s' := by
  cases h with
  | goOn hpc hflag | noMore hpc hflag => simp [Process.resume, hpc, hflag]
  | notAccepted hpc | accepted hpc | noMemory hpc | swept hpc | closed hpc =>
      simp [Process.resume, hpc]
  | entry hpc hp => simp [Process.resume, hpc, Process.newEntry, hp]
  | created hpc hnode hinsert =>
      simp [Process.resume, hpc, Process.newThread, hnode, hinsert, Process.startSweep]
  | notCreated hpc hn => simp [Process.resume, hpc, hn]
  | freedFailed hpc hnode =>
      simp [Process.resume, hpc, Process.free, hnode, Process.startSweep]
  | complete hpc hnode hc | running hpc hnode hc => simp [Process.resume, hpc, hnode, hc]
  | sweepJoined hpc hjoin hremove | cleanupJoined hpc hjoin hremove =>
      simp [Process.resume, hpc, hjoin, hremove]
  | sweepFreed hpc hnode | cleanupFreed hpc hnode =>
      simp [Process.resume, hpc, Process.free, hnode]
  | empty hpc hfirst | first hpc hfirst => simp [Process.resume, hpc, hfirst]

end

end Aesd.Server
