import Aesd.Server.Shutdown

/-!
# `main` comes to its end

Once a signal came, `main` has so much left: its rank, by where it is and by the
list, gets smaller with each of its steps, whatever its calls return and whatever
it reads in an entry it freed (`Listed.rank_lt`). And it is never without a next
step, but at a join of a thread that has not ended, or at a link that it read from
freed memory and that leads to no entry (`Listed.goesOn`). So in every run it makes
only so many steps more, and then is done or at one of these two (`main_ends`).
-/

namespace Aesd.Server

open Aesd.Lib

/-! ## What `main` has left -/

/-- A bound for the steps of `main` that are left with the list `ids`, when it accepts
no more. In the sweep it has the list from its link on before it. -/
def MainPc.rank (ids : List Nat) : MainPc → Nat
  | .done _ => 0
  | .close => 1
  | .cleanup => 3 * ids.length + 2
  | .cleanupJoin _ => 3 * ids.length + 1
  | .cleanupFree _ | .loop => 3 * ids.length + 3
  | .sweep none => ids.length * ids.length + 3 * ids.length + 4
  | .sweep (some p) =>
      ids.length * ids.length + 3 * ids.length + 4 + (ids.length - ids.idxOf p)
  | .sweepJoin _ => ids.length * ids.length + 3 * ids.length + 4
  | .sweepFree _ | .freeFailed _ _ => ids.length * ids.length + 4 * ids.length + 5
  | .pthreadCreate _ _ => ids.length * ids.length + 6 * ids.length + 10
  | .malloc _ => ids.length * ids.length + 6 * ids.length + 11
  | .accept => ids.length * ids.length + 6 * ids.length + 12

/-- `main` is about to follow a link to no entry. -/
def Process.Stale (s : Process) : Prop :=
  ∃ p, s.pc = .sweep (some p) ∧ s.entries p = none

/-- `main` waits for a thread that has not ended. -/
def Process.Waits (s : Process) : Prop :=
  ∃ tid st, s.mainCall = some (.pthreadJoin (some tid)) ∧ s.threads[tid]? = some st ∧
    st.thread.pc ≠ .done

section
variable {outs : List (Option Event)} {s s' : Process} {ids tids : List Nat} {p : Nat}

theorem MainPc.rank_le (pc : MainPc) : pc.rank ids ≤ (ids.length + 3) ^ 2 + 3 := by
  have hsquare : (ids.length + 3) ^ 2 = ids.length * ids.length + 6 * ids.length + 9 := by
    rw [Nat.pow_two, Nat.add_mul, Nat.mul_add]
    omega
  cases pc with
  | sweep first => cases first <;> simp only [MainPc.rank] <;> omega
  | _ =>
      simp only [MainPc.rank]
      omega

/-- Whatever link the sweep is at, it has no more before it than the list. -/
theorem MainPc.rank_sweep_le (first : Option Nat) : (MainPc.sweep first).rank ids
    ≤ ids.length * ids.length + 4 * ids.length + 4 := by
  cases first <;> simp only [MainPc.rank] <;> omega

theorem Listed.rank_running (h : Listed outs s ids tids) {node : Node ThreadArgs}
    (hpc : s.pc = .sweep (some p)) (hnode : s.entries p = some node) :
    (MainPc.sweep node.next).rank ids < s.pc.rank ids := by
  obtain ⟨before, rest, rfl⟩ := List.append_of_mem (h.mem hnode (by rw [hpc]; rfl))
  have hlinks := h.links
  have hnodup := hlinks.nodup
  have hp : p ∉ before ++ rest := by
    rw [List.nodup_middle, List.nodup_cons] at hnodup
    exact hnodup.1
  rw [List.mem_append, not_or] at hp
  obtain ⟨-, node', hnode', hrest⟩ := hlinks.suffix
  rw [hnode] at hnode'
  cases hnode'
  have hat : (before ++ p :: rest).idxOf p = before.length := by
    rw [List.idxOf_append_of_notMem hp.1, List.idxOf_cons_self, Nat.add_zero]
  rw [hpc, hrest.head]
  cases rest with
  | nil =>
      simp only [List.head?_nil, MainPc.rank, hat, List.length_append, List.length_singleton]
      omega
  | cons q rest =>
      have hq : (before ++ p :: q :: rest).idxOf q = before.length + 1 := by
        have hqbefore : q ∉ before ++ [p] := by
          rw [show before ++ p :: q :: rest = (before ++ [p]) ++ q :: rest by simp,
            List.nodup_middle, List.nodup_cons] at hnodup
          exact fun hmem => hnodup.1 (List.mem_append_left _ hmem)
        rw [show before ++ p :: q :: rest = (before ++ [p]) ++ q :: rest by simp,
          List.idxOf_append_of_notMem hqbefore, List.idxOf_cons_self]
        simp
      simp only [List.head?_cons, MainPc.rank, hat, hq, List.length_append, List.length_cons]
      omega

theorem Listed.rank_complete (h : Listed outs s ids tids) {node : Node ThreadArgs}
    (hpc : s.pc = .sweep (some p)) (hnode : s.entries p = some node) :
    (MainPc.sweepJoin p).rank ids < s.pc.rank ids := by
  have hlt := List.idxOf_lt_length_iff.mpr (h.mem hnode (by rw [hpc]; rfl))
  rw [hpc]
  simp only [MainPc.rank]
  omega

/-- **Every step of `main`** leaves less, once it accepts no more. -/
theorem Listed.rank_lt (h : Listed outs s ids tids) (hflag : s.bAcceptConnections = false)
    {r : MainResp} (hs : s.resume r = some s') :
    ∃ ids' tids', Listed (outs ++ [s.mainCall.map .main]) s' ids' tids' ∧
      s'.pc.rank ids' < s.pc.rank ids := by
  obtain ⟨ids', tids', h'⟩ := h.main hs
  refine ⟨ids', tids', h', ?_⟩
  have hlinks := h.links
  have hlinks' := h'.links
  cases Process.resume_cases hs with
  | goOn hpc hflag' =>
      rw [hflag] at hflag'
      cases hflag'
  | noMore hpc | notAccepted hpc | accepted hpc | notCreated hpc | swept hpc | empty hpc
  | first hpc | closed hpc =>
      obtain rfl := hlinks'.unique hlinks
      rw [hpc]
      simp only [Process.accept, MainPc.rank]
      omega
  | noMemory hpc =>
      obtain rfl := hlinks'.unique hlinks
      refine Nat.lt_of_le_of_lt (MainPc.rank_sweep_le s.slhFirst) ?_
      rw [hpc]
      simp only [MainPc.rank]
      omega
  | entry hpc hp =>
      obtain rfl := hlinks'.unique (hlinks.update (h.notMem hp) _)
      rw [hpc]
      simp only [MainPc.rank]
      omega
  | @created fd p node entries slhFirst hpc hnode hinsert =>
      have hnot := h.apart p (by rw [hpc]; rfl)
      obtain rfl := hlinks'.unique
        (slistInsertHead_links (hlinks.update hnot _) hnot hinsert)
      refine Nat.lt_of_le_of_lt (MainPc.rank_sweep_le slhFirst) ?_
      rw [hpc]
      simp only [List.length_cons, Nat.add_mul, Nat.mul_add, MainPc.rank]
      omega
  | freedFailed hpc =>
      obtain rfl := hlinks'.unique (hlinks.update (h.apart _ (by rw [hpc]; rfl)) none)
      refine Nat.lt_of_le_of_lt (MainPc.rank_sweep_le s.slhFirst) ?_
      rw [hpc]
      simp only [MainPc.rank]
      omega
  | complete hpc hnode =>
      obtain rfl := hlinks'.unique hlinks
      exact h.rank_complete hpc hnode
  | running hpc hnode =>
      obtain rfl := hlinks'.unique hlinks
      exact h.rank_running hpc hnode
  | sweepJoined hpc hjoin hremove =>
      obtain ⟨ids'', _, h'', hlen⟩ := h.sweepJoined hpc hjoin hremove
      obtain rfl := hlinks'.unique h''.links
      rw [hpc]
      simp only [MainPc.rank, ← hlen, Nat.add_mul, Nat.mul_add]
      omega
  | @sweepFreed p node next hpc =>
      obtain rfl := hlinks'.unique (hlinks.update (h.apart _ (by rw [hpc]; rfl)) none)
      refine Nat.lt_of_le_of_lt (MainPc.rank_sweep_le next) ?_
      rw [hpc]
      simp only [MainPc.rank]
      omega
  | cleanupJoined hpc hjoin hremove =>
      obtain ⟨ids'', _, h'', hlen⟩ := h.cleanupJoined hpc hjoin hremove
      obtain rfl := hlinks'.unique h''.links
      rw [hpc]
      simp only [MainPc.rank]
      omega
  | cleanupFreed hpc =>
      obtain rfl := hlinks'.unique (hlinks.update (h.apart _ (by rw [hpc]; rfl)) none)
      rw [hpc]
      simp only [MainPc.rank]
      omega

/-! ## `main` goes on -/

theorem Listed.not_stale (h : Listed outs s ids tids) {first : Option Nat}
    (hpc : s.pc = .sweep first) (hmem : ∀ q, first = some q → q ∈ ids) : ¬ s.Stale := by
  rintro ⟨q, hq, hnone⟩
  rw [hpc] at hq
  cases hq
  exact h.notMem hnone (hmem q rfl)

theorem Listed.aside_node (h : Listed outs s ids tids) (haside : s.pc.aside = some p) :
    ∃ node, s.entries p = some node :=
  Option.isSome_iff_exists.mp ((h.entry p).mpr (.inr haside))

/-- **A join of an entry on the list** waits for its thread, or returns. -/
theorem Listed.joinable (h : Listed outs s ids tids) (hp : p ∈ ids)
    (hcall : s.mainCall = some (.pthreadJoin (tidOf s.entries p))) :
    s.Waits ∨ s.joined p 0 = some () := by
  have htid : tidOf s.entries p ∈ tids.map some := by
    rw [← h.named]
    exact List.mem_map_of_mem hp
  obtain ⟨tid, hmem, htid⟩ := List.mem_map.mp htid
  have hlt : tid < s.threads.length := by
    have hrange := h.joined.subset (List.mem_append_right _ (List.mem_map_of_mem hmem))
    simpa using hrange
  obtain ⟨node, hnode⟩ := h.links.node hp
  have hnode_tid : node.val.tid = some tid := by
    rw [htid]
    simp [tidOf, hnode]
  by_cases hdone : s.threads[tid].thread.pc = .done
  · exact .inr (by simp [Process.joined, hnode, hnode_tid, hlt, hdone])
  · rw [← htid] at hcall
    exact .inl ⟨tid, s.threads[tid], hcall, List.getElem?_eq_getElem hlt, hdone⟩

/-- Results with which `main` goes on, to no stale link and with no thread more. -/
structure GoesTo (s : Process) (r : MainResp) (s' : Process) : Prop where
  resume : s.resume r = some s'
  threads : s'.threads = s.threads
  stale : ¬ s'.Stale

theorem MainBranch.goesTo {r : MainResp} (h : MainBranch s r s')
    (hthreads : s'.threads = s.threads) (hpc : ∀ first, s'.pc ≠ .sweep first) :
    GoesTo s r s' :=
  ⟨h.resume, hthreads, fun ⟨_, hq, _⟩ => hpc _ hq⟩

theorem Listed.goesTo (h : Listed outs s ids tids) {r : MainResp} {first : Option Nat}
    (hbranch : MainBranch s r s') (hthreads : s'.threads = s.threads)
    (hpc : s'.pc = .sweep first) (hlinks : Links s'.entries s'.slhFirst ids)
    (hmem : ∀ q, first = some q → q ∈ ids) : GoesTo s r s' := by
  obtain ⟨ids', tids', h'⟩ := h.main hbranch.resume
  obtain rfl := h'.links.unique hlinks
  exact ⟨hbranch.resume, hthreads, h'.not_stale hpc hmem⟩

theorem Listed.first_mem (h : Listed outs s ids tids) (q : Nat) (hq : s.slhFirst = some q) :
    q ∈ ids := by
  rw [h.links.head] at hq
  exact List.mem_of_head? hq

theorem Listed.next_mem (h : Listed outs s ids tids) {node : Node ThreadArgs} (hp : p ∈ ids)
    (hnode : s.entries p = some node) (q : Nat) (hq : node.next = some q) : q ∈ ids := by
  obtain ⟨before, rest, rfl⟩ := List.append_of_mem hp
  obtain ⟨-, node', hnode', hrest⟩ := h.links.suffix
  rw [hnode] at hnode'
  cases hnode'
  rw [hrest.head] at hq
  exact List.mem_append_right _ (List.mem_cons_of_mem _ (List.mem_of_head? hq))

/-- **`main` goes on**, unless it is done, at a stale link, or waits for a thread. -/
theorem Listed.goesOn (h : Listed outs s ids tids) (hne : ∀ ret, s.pc ≠ .done ret)
    (hstale : ¬ s.Stale) : s.Waits ∨ ∃ r s', GoesTo s r s' := by
  have hlinks := h.links
  have hplace := h.place
  cases hpc : s.pc with
  | done ret => exact absurd hpc (hne ret)
  | loop =>
      cases hflag : s.bAcceptConnections with
      | true => exact .inr ⟨_, _, (MainBranch.goOn hpc hflag).goesTo rfl (by simp)⟩
      | false => exact .inr ⟨_, _, (MainBranch.noMore hpc hflag).goesTo rfl (by simp)⟩
  | accept => exact .inr ⟨_, _, (MainBranch.notAccepted hpc).goesTo rfl (by simp)⟩
  | malloc fd =>
      exact .inr ⟨_, _, h.goesTo (.noMemory hpc) rfl rfl hlinks h.first_mem⟩
  | pthreadCreate fd p =>
      exact .inr ⟨_, _, (MainBranch.notCreated hpc Int.one_ne_zero).goesTo rfl (by simp)⟩
  | freeFailed fd p =>
      have haside : s.pc.aside = some p := by rw [hpc]; rfl
      obtain ⟨node, hnode⟩ := h.aside_node haside
      exact .inr ⟨_, _, h.goesTo (.freedFailed hpc hnode) rfl rfl
        (hlinks.update (h.apart p haside) none) h.first_mem⟩
  | sweep first =>
      cases first with
      | none => exact .inr ⟨_, _, (MainBranch.swept hpc).goesTo rfl (by simp)⟩
      | some p =>
          cases hnode : s.entries p with
          | none => exact absurd ⟨p, hpc, hnode⟩ hstale
          | some node =>
              have hp := h.mem hnode (by rw [hpc]; rfl)
              cases hc : node.val.bIsThreadComplete with
              | true =>
                  exact .inr ⟨_, _, (MainBranch.complete hpc hnode hc).goesTo rfl (by simp)⟩
              | false =>
                  exact .inr ⟨_, _, h.goesTo (.running hpc hnode hc) rfl rfl hlinks
                    (h.next_mem hp hnode)⟩
  | sweepJoin p =>
      rw [hpc] at hplace
      refine (h.joinable hplace (by simp [Process.mainCall, hpc, tidOf])).imp_right fun hjoin => ?_
      obtain ⟨before, rest, rfl⟩ := List.append_of_mem hplace
      have hlen := h.length_le
      rw [List.length_append] at hlen
      obtain ⟨entries', first', hremove, -⟩ :=
        slistRemove_links hlinks (by omega : before.length ≤ s.threads.length)
      exact ⟨_, _, (MainBranch.sweepJoined hpc hjoin hremove).goesTo rfl (by simp)⟩
  | sweepFree p =>
      have haside : s.pc.aside = some p := by rw [hpc]; rfl
      obtain ⟨node, hnode⟩ := h.aside_node haside
      rw [hpc] at hplace
      exact .inr ⟨_, _, h.goesTo (.sweepFreed hpc hnode) rfl rfl
        (hlinks.update (h.apart p haside) none) fun q => hplace node q hnode⟩
  | cleanup =>
      cases hfirst : s.slhFirst with
      | none => exact .inr ⟨_, _, (MainBranch.empty hpc hfirst).goesTo rfl (by simp)⟩
      | some p => exact .inr ⟨_, _, (MainBranch.first hpc hfirst).goesTo rfl (by simp)⟩
  | cleanupJoin p =>
      rw [hpc] at hplace
      have hp := h.first_mem p hplace
      refine (h.joinable hp (by simp [Process.mainCall, hpc, tidOf])).imp_right fun hjoin => ?_
      obtain ⟨node, hnode⟩ := hlinks.node hp
      have hremove : slistRemoveHead s.entries s.slhFirst = some node.next := by
        have hfirst : s.slhFirst = some p := hplace
        simp [slistRemoveHead, slistNext, hfirst, hnode]
      exact ⟨_, _, (MainBranch.cleanupJoined hpc hjoin hremove).goesTo rfl (by simp)⟩
  | cleanupFree p =>
      obtain ⟨node, hnode⟩ := h.aside_node (p := p) (by rw [hpc]; rfl)
      exact .inr ⟨_, _, (MainBranch.cleanupFreed hpc hnode).goesTo rfl (by simp)⟩
  | close => exact .inr ⟨.int 0, _, (MainBranch.closed hpc).goesTo rfl (by simp)⟩

/-! ## Runs -/

/-- A process that a signal has reached, with the list `ids`. -/
structure Stopping (s : Process) (ids : List Nat) : Prop where
  listed : ∃ outs tids, Listed outs s ids tids
  flag : s.bAcceptConnections = false

/-- A step of `main`. -/
def ProcessAct.isMain : ProcessAct → Bool
  | .main _ => true
  | _ => false

theorem Stopping.main (h : Stopping s ids) {r : MainResp} (hs : s.resume r = some s') :
    ∃ ids', Stopping s' ids' ∧ s'.pc.rank ids' < s.pc.rank ids := by
  obtain ⟨outs, tids, hlisted⟩ := h.listed
  obtain ⟨ids', tids', h', hlt⟩ := hlisted.rank_lt h.flag hs
  exact ⟨ids', ⟨⟨_, tids', h'⟩, (Process.resume_moves hs).flag.trans h.flag⟩, hlt⟩

theorem Stopping.thread (h : Stopping s ids) {i : Nat} {r : Resp} {event : Event}
    (hs : s.threadStep i r = some (event, s')) :
    Stopping s' ids ∧ s'.pc = s.pc ∧ (s'.Stale ↔ s.Stale) := by
  obtain ⟨outs, tids, hlisted⟩ := h.listed
  have hkeep := Process.threadStep_keeps hs
  obtain ⟨st, t, call, entries, -, -, -, hs', -⟩ := Process.threadStep_eq_some hs
  have hflag : s'.bAcceptConnections = s.bAcceptConnections := by rw [hs']
  have hpc : s'.pc = s.pc := by rw [hs']
  have hnone : ∀ q, s'.entries q = none ↔ s.entries q = none := fun q => by
    rw [← Option.map_eq_none_iff, (hkeep q).1, Option.map_eq_none_iff]
  exact ⟨⟨⟨_, tids, hlisted.thread hs⟩, hflag.trans h.flag⟩, hpc, by
    simp only [Process.Stale, hpc, hnone]⟩

/-- **One step** takes something of what `main` has left, or is not its own. -/
theorem Stopping.step (h : Stopping s ids) {act : ProcessAct} {out : Option Event}
    (hs : s.step act = some (out, s')) :
    ∃ ids', Stopping s' ids' ∧
      s'.pc.rank ids' + (if act.isMain then 1 else 0) ≤ s.pc.rank ids := by
  cases act with
  | main r =>
      simp only [Process.step, Option.bind_eq_bind, Option.bind_eq_some_iff] at hs
      obtain ⟨t, ht, hs⟩ := hs
      cases hs
      exact h.main ht
  | thread i r =>
      simp only [Process.step, Option.bind_eq_bind, Option.bind_eq_some_iff] at hs
      obtain ⟨⟨event, t⟩, ht, hs⟩ := hs
      cases hs
      obtain ⟨h', hpc, -⟩ := h.thread ht
      exact ⟨ids, h', by rw [hpc]; rfl⟩
  | signal =>
      obtain ⟨outs, tids, hlisted⟩ := h.listed
      cases hs
      have hquiet : Listed (outs ++ [none]) { s with bAcceptConnections := false } ids tids :=
        hlisted.quiet rfl rfl rfl rfl rfl hlisted.place
      exact ⟨ids, ⟨⟨_, tids, hquiet⟩, rfl⟩, Nat.le_refl _⟩

/-- **In every run** `main` makes no more steps than it has left. -/
theorem Stopping.run (h : Stopping s ids) {acts : List ProcessAct}
    (hrun : run Process.step s acts = some (outs, s')) :
    ∃ ids', Stopping s' ids' ∧
      acts.countP ProcessAct.isMain + s'.pc.rank ids' ≤ s.pc.rank ids := by
  refine run_history (P := fun acts _ s' => ∃ ids', Stopping s' ids' ∧
    acts.countP ProcessAct.isMain + s'.pc.rank ids' ≤ s.pc.rank ids)
    ⟨ids, h, by simp⟩ ?_ hrun
  rintro acts outs t act out t' - ⟨ids', h', hle⟩ hs
  obtain ⟨ids'', h'', hle'⟩ := h'.step hs
  refine ⟨ids'', h'', ?_⟩
  rw [List.countP_append, List.countP_singleton]
  omega

end

/-- **`main` comes to its end.** Take any run in which a signal came, over any
connections and failures, with the threads and `main` wherever they are, and any
run that goes on from there. In it `main` makes no more steps than the bound, so
many threads were there at its start; and where it leads, `main` is done, or about
to follow a link that it read from an entry it freed to something that is no entry,
or it waits to join a thread that has not ended, or it can go on. -/
theorem main_ends {acts : List ProcessAct} {outs : List (Option Event)} {s : Process}
    (h : run Process.step .init acts = some (outs, s)) (hsignal : .signal ∈ acts)
    {more : List ProcessAct} {outs' : List (Option Event)} {s' : Process}
    (h' : run Process.step s more = some (outs', s')) :
    more.countP ProcessAct.isMain ≤ (s.threads.length + 3) ^ 2 + 3 ∧
      ((∃ ret, s'.pc = .done ret) ∨ s'.Stale ∨ s'.Waits ∨
        ∃ r out t, s'.step (.main r) = some (out, t)) := by
  obtain ⟨ids, tids, hlisted⟩ := run_listed h
  have hstopping : Stopping s ids := ⟨⟨outs, tids, hlisted⟩, (run_ended h).flag.mpr hsignal⟩
  obtain ⟨ids', ⟨⟨_, _, hlisted'⟩, -⟩, hle⟩ := hstopping.run h'
  constructor
  · calc more.countP ProcessAct.isMain ≤ s.pc.rank ids := Nat.le_of_add_right_le hle
      _ ≤ (ids.length + 3) ^ 2 + 3 := s.pc.rank_le
      _ ≤ (s.threads.length + 3) ^ 2 + 3 := by
          have := Nat.pow_le_pow_left (Nat.add_le_add_right hlisted.length_le 3) 2
          omega
  · by_cases hdone : ∃ ret, s'.pc = .done ret
    · exact .inl hdone
    by_cases hstale : s'.Stale
    · exact .inr (.inl hstale)
    rcases hlisted'.goesOn (fun ret hpc => hdone ⟨ret, hpc⟩) hstale with hwaits | ⟨r, t, hto⟩
    · exact .inr (.inr (.inl hwaits))
    · exact .inr (.inr (.inr ⟨r, s'.mainCall.map .main, t, by simp [Process.step, hto.resume]⟩))

/-- A client that stays connected: `main` comes to the join of its thread, and waits. -/
theorem main_ends_connected :
    let acts : List ProcessAct := [.main .turn, .main .descriptor, .main (.block 0),
      .main (.int 0), .main .turn, .main .turn, .main .turn, .thread 0 .nonNull, .signal]
    ∃ outs s outs' s', run Process.step .init acts = some (outs, s) ∧
      run Process.step s [.main (.int (-1)), .main .turn] = some (outs', s') ∧ s'.Waits ∧
      ∀ more outs'' s'', run Process.step s more = some (outs'', s'') →
        more.countP ProcessAct.isMain ≤ 19 := by
  intro acts
  have h : (run Process.step .init acts).any (fun p =>
      p.2.threads.length = 1 ∧ (run Process.step p.2 [.main (.int (-1)), .main .turn]).any
        (fun q => q.2.mainCall = some (.pthreadJoin (some 0)) ∧
          q.2.threads[0]?.any fun st => st.thread.pc ≠ .done)) = true := by decide
  obtain ⟨⟨outs, s⟩, hrun, hs⟩ := (Option.any_eq_true _ _).mp h
  obtain ⟨hlen, hs⟩ := of_decide_eq_true hs
  obtain ⟨⟨outs', s'⟩, hrun', hs'⟩ := (Option.any_eq_true _ _).mp hs
  obtain ⟨hcall, hthread⟩ := of_decide_eq_true hs'
  obtain ⟨st, hst, hpc⟩ := (Option.any_eq_true _ _).mp hthread
  refine ⟨outs, s, outs', s', hrun, hrun', ⟨0, st, hcall, hst, of_decide_eq_true hpc⟩,
    fun more outs'' s'' hmore => ?_⟩
  have hbound := (main_ends hrun (by simp [acts]) hmore).1
  have hlen : s.threads.length = 1 := hlen
  rw [hlen] at hbound
  exact hbound

end Aesd.Server
