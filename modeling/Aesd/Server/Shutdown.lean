import Aesd.Server.Sweep
import Aesd.Server.Descriptors

/-!
# The end of `main`

Every thread has an entry, which is on the list from `pthread_create` to
`pthread_join` (`Listed`). So when `main` is done, whatever its sweeps did
before, every thread has ended and was joined once, and every entry was freed
(`main_joins_all`). A signal lets `main` accept one more connection at most
(`main_stops`).
-/

namespace Aesd.Server

open Aesd.Lib

/-- The entry that is not on the list: it is being set up, or freed. -/
def MainPc.aside : MainPc → Option Nat
  | .pthreadCreate _ p => some p
  | pc => pc.freeing

/-- What `main` relies on of the list `ids` where it is. The entry it frees in the
sweep still has the link to the next. -/
def MainPc.Expects (entries : Nodes ThreadArgs) (slhFirst : Option Nat) (ids : List Nat) :
    MainPc → Prop
  | .sweepJoin p => p ∈ ids
  | .sweepFree p => ∀ node q, entries p = some node → node.next = some q → q ∈ ids
  | .cleanupJoin p => slhFirst = some p
  | .close | .done _ => slhFirst = none
  | _ => True

/-- The list is `ids`, entries of the threads `tids`. There are no entries but
these and the one aside, and the threads that are not on the list were joined,
each once. -/
structure Listed (outs : List (Option Event)) (s : Process) (ids tids : List Nat) :
    Prop where
  links : Links s.entries s.slhFirst ids
  entry : ∀ p, (s.entries p).isSome = true ↔ p ∈ ids ∨ s.pc.aside = some p
  apart : ∀ p, s.pc.aside = some p → p ∉ ids
  named : ids.map (tidOf s.entries) = tids.map some
  joined : (joinsOf outs ++ tids.map some).Perm ((List.range s.threads.length).map some)
  ended : ∀ tid st, s.threads[tid]? = some st → some tid ∈ joinsOf outs →
    st.thread.pc = .done
  place : s.pc.Expects s.entries s.slhFirst ids

theorem listed_init : Listed [] .init [] [] where
  links := rfl
  entry := fun p => by simp [Process.init, MainPc.aside, MainPc.freeing]
  apart := fun p hp => by cases hp
  named := rfl
  joined := List.Perm.refl _
  ended := fun tid st hst => by cases hst
  place := trivial

section
variable {outs : List (Option Event)} {out : Option Event} {s s' : Process}
  {ids tids : List Nat} {p : Nat}

theorem MainPc.Expects.sameNext {pc : MainPc} {entries entries' : Nodes ThreadArgs}
    {slhFirst : Option Nat} (h : pc.Expects entries slhFirst ids)
    (hsame : ∀ q, (entries' q).map Node.next = (entries q).map Node.next) :
    pc.Expects entries' slhFirst ids := by
  cases pc with
  | sweepFree p =>
      intro node q hnode hq
      have hnext := hsame p
      rw [hnode, Option.map_some] at hnext
      obtain ⟨node', hnode', hnext⟩ := Option.map_eq_some_iff.mp hnext.symm
      exact h node' q hnode' (hnext.trans hq)
  | _ => exact h

theorem tidOf_congr {entries entries' : Nodes ThreadArgs}
    (h : (entries' p).map Node.val = (entries p).map Node.val) :
    tidOf entries' p = tidOf entries p := by
  have htid : ∀ entries : Nodes ThreadArgs, tidOf entries p
      = ((entries p).map Node.val).bind ThreadArgs.tid := by
    intro entries
    rw [Option.bind_map]
    rfl
  rw [htid, htid, h]

theorem isSome_of_vals {entries entries' : Nodes ThreadArgs}
    (h : (entries' p).map Node.val = (entries p).map Node.val) :
    (entries' p).isSome = (entries p).isSome := by
  rw [← Option.isSome_map, h, Option.isSome_map]

/-- An entry is on the list while none is aside. -/
theorem Listed.mem (h : Listed outs s ids tids) {node : Node ThreadArgs}
    (hp : s.entries p = some node) (haside : s.pc.aside = none) : p ∈ ids := by
  have hsome : (s.entries p).isSome = true := by rw [hp, Option.isSome_some]
  rcases (h.entry p).mp hsome with hmem | hother
  · exact hmem
  · rw [haside] at hother
    cases hother

theorem Listed.notMem (h : Listed outs s ids tids) (hp : s.entries p = none) : p ∉ ids := by
  intro hmem
  have hsome := (h.entry p).mpr (.inl hmem)
  rw [hp] at hsome
  cases hsome

/-- No longer a list than there are threads. -/
theorem Listed.length_le (h : Listed outs s ids tids) : ids.length ≤ s.threads.length := by
  have hperm := h.joined.length_eq
  have htids := congrArg List.length h.named
  simp only [List.length_append, List.length_map, List.length_range] at hperm htids
  omega

theorem Listed.quiet (h : Listed outs s ids tids) (hjoin : joinsOf [out] = [])
    (hentries : s'.entries = s.entries) (hfirst : s'.slhFirst = s.slhFirst)
    (hthreads : s'.threads = s.threads) (haside : s'.pc.aside = s.pc.aside)
    (hplace : s'.pc.Expects s.entries s.slhFirst ids) : Listed (outs ++ [out]) s' ids tids := by
  have hjoins : joinsOf (outs ++ [out]) = joinsOf outs := by
    rw [joinsOf_append, hjoin, List.append_nil]
  constructor
  · rw [hentries, hfirst]
    exact h.links
  · rw [hentries, haside]
    exact h.entry
  · rw [haside]
    exact h.apart
  · rw [hentries]
    exact h.named
  · rw [hjoins, hthreads]
    exact h.joined
  · rw [hjoins, hthreads]
    exact h.ended
  · rw [hentries, hfirst]
    exact hplace

/-- **The entry aside is freed.** -/
theorem Listed.free (h : Listed outs s ids tids) (haside : s.pc.aside = some p)
    (hjoin : joinsOf [out] = []) {pc : MainPc} (hpc : pc.aside = none)
    (hplace : pc.Expects (Function.update s.entries p none) s.slhFirst ids) :
    Listed (outs ++ [out]) { s with pc, entries := Function.update s.entries p none }
      ids tids := by
  have hjoins : joinsOf (outs ++ [out]) = joinsOf outs := by
    rw [joinsOf_append, hjoin, List.append_nil]
  have hp := h.apart p haside
  constructor
  · exact h.links.update hp none
  · intro q
    show (Function.update s.entries p none q).isSome = true ↔ q ∈ ids ∨ pc.aside = some q
    by_cases hq : q = p
    · subst hq
      rw [Function.update_self, hpc]
      simp [hp]
    · rw [Function.update_of_ne hq, h.entry, hpc, haside]
      simp [Ne.symm hq]
  · intro q hq
    have hq : pc.aside = some q := hq
    rw [hpc] at hq
    cases hq
  · rw [← h.named]
    apply List.map_congr_left
    intro q hq
    apply tidOf_congr
    show (Function.update s.entries p none q).map Node.val = _
    rw [Function.update_of_ne (ne_of_mem_of_not_mem hq hp)]
  · rw [hjoins]
    exact h.joined
  · rw [hjoins]
    exact h.ended
  · exact hplace

theorem Listed.newEntry (h : Listed outs s ids tids) {fd : Fd} (hp : s.entries p = none)
    (hpc : s.pc.aside = none) (hjoin : joinsOf [out] = []) (node : Node ThreadArgs) :
    Listed (outs ++ [out]) { s with
      pc := .pthreadCreate fd p
      entries := Function.update s.entries p (some node) } ids tids := by
  have hjoins : joinsOf (outs ++ [out]) = joinsOf outs := by
    rw [joinsOf_append, hjoin, List.append_nil]
  have hnot := h.notMem hp
  constructor
  · exact h.links.update hnot _
  · intro q
    show (Function.update s.entries p (some node) q).isSome = true ↔ q ∈ ids ∨ some p = some q
    by_cases hq : q = p
    · subst hq
      simp
    · rw [Function.update_of_ne hq, h.entry, hpc]
      simp [Ne.symm hq]
  · rintro q ⟨⟩
    exact hnot
  · rw [← h.named]
    apply List.map_congr_left
    intro q hq
    apply tidOf_congr
    show (Function.update s.entries p (some node) q).map Node.val = _
    rw [Function.update_of_ne (ne_of_mem_of_not_mem hq hnot)]
  · rw [hjoins]
    exact h.joined
  · rw [hjoins]
    exact h.ended
  · trivial

/-- **A thread is created**, and its entry goes on the list. -/
theorem Listed.newThread (h : Listed outs s ids tids) {fd : Fd}
    (hpc : s.pc = .pthreadCreate fd p) (hjoin : joinsOf [out] = [])
    (hs : s.newThread p = some s') :
    Listed (outs ++ [out]) s' (p :: ids) (s.threads.length :: tids) := by
  have hjoins : joinsOf (outs ++ [out]) = joinsOf outs := by
    rw [joinsOf_append, hjoin, List.append_nil]
  have haside : s.pc.aside = some p := by rw [hpc]; rfl
  have hnot := h.apart p haside
  simp only [Process.newThread, Option.bind_eq_bind, Option.bind_eq_some_iff] at hs
  obtain ⟨node, hnode, ⟨entries, first⟩, hinsert, hs⟩ := hs
  cases hs
  have hvals := slistInsertHead_sameVals hinsert
  have hother : ∀ q ≠ p, (entries q).map Node.val = (s.entries q).map Node.val := by
    intro q hq
    rw [hvals q, Function.update_of_ne hq]
  have hself : (entries p).map Node.val = some { node.val with tid := some s.threads.length } := by
    rw [hvals p, Function.update_self]
    rfl
  constructor
  · exact slistInsertHead_links (h.links.update hnot _) hnot hinsert
  · intro q
    show (entries q).isSome = true ↔ q ∈ p :: ids ∨ (none : Option Nat) = some q
    by_cases hq : q = p
    · subst hq
      rw [← Option.isSome_map, hself]
      simp
    · rw [isSome_of_vals (hother q hq), h.entry, haside]
      simp [hq, Ne.symm hq]
  · intro q hq
    cases hq
  · show (p :: ids).map (tidOf entries) = (s.threads.length :: tids).map some
    rw [List.map_cons, List.map_cons, ← h.named]
    congr 1
    · obtain ⟨node', hnode', hval⟩ := Option.map_eq_some_iff.mp hself
      simp [tidOf, hnode', hval]
    · apply List.map_congr_left
      intro q hq
      exact tidOf_congr (hother q (ne_of_mem_of_not_mem hq hnot))
  · show (joinsOf (outs ++ [out]) ++ (s.threads.length :: tids).map some).Perm
      ((List.range (s.threads ++ [(⟨p, .init⟩ : ServiceThread)]).length).map some)
    rw [hjoins, List.length_append, List.length_singleton, List.range_succ, List.map_append,
      List.map_cons]
    exact List.perm_middle.trans
      ((h.joined.cons _).trans (List.perm_append_singleton _ _).symm)
  · intro tid st hst hmem
    rw [hjoins] at hmem
    -- the new thread was not joined
    have hlt : tid < s.threads.length := by
      have := h.joined.subset (List.mem_append_left _ hmem)
      simpa using this
    have hst : (s.threads ++ [⟨p, .init⟩])[tid]? = some st := hst
    rw [List.getElem?_append_left hlt] at hst
    exact h.ended tid st hst hmem
  · trivial

/-- **A thread is joined**, and its entry goes off the list. -/
theorem Listed.join (h : Listed outs s ids tids) {xs ys : List Nat} {n : Int}
    {entries' : Nodes ThreadArgs} {first' : Option Nat} {pc : MainPc}
    (hids : ids = xs ++ p :: ys) (haside : s.pc.aside = none)
    (hjoin : s.joined p n = some ()) (hvals : SameVals s.entries entries')
    (hlinks : Links entries' first' (xs ++ ys)) (hpc : pc.aside = some p)
    (hplace : pc.Expects entries' first' (xs ++ ys)) :
    ∃ tids', Listed (outs ++ [some (.main (.pthreadJoin (tidOf s.entries p)))])
      { s with pc, entries := entries', slhFirst := first' } (xs ++ ys) tids' := by
  subst hids
  obtain ⟨node, tid, st, hnode, htid, hst, hdone⟩ := Process.joined_eq_some hjoin
  have htidOf : tidOf s.entries p = some tid := by simp [tidOf, hnode, htid]
  -- the thread's place among the `tids`
  have hmap := h.named
  rw [List.map_append, List.map_cons, htidOf] at hmap
  obtain ⟨before, rest, rfl, hbefore, hrest⟩ := List.map_eq_append_iff.mp hmap.symm
  obtain ⟨t, after, rfl, ht, hafter⟩ := List.map_eq_cons_iff.mp hrest
  cases ht
  have hnodup := h.links.nodup
  rw [List.nodup_middle, List.nodup_cons] at hnodup
  have hjoins : joinsOf (outs ++ [some (.main (.pthreadJoin (tidOf s.entries p)))])
      = joinsOf outs ++ [some tid] := by
    rw [joinsOf_append, htidOf]
    rfl
  refine ⟨before ++ after, ?_⟩
  constructor
  · exact hlinks
  · intro q
    show (entries' q).isSome = true ↔ q ∈ xs ++ ys ∨ pc.aside = some q
    rw [isSome_of_vals (hvals q), h.entry, haside, hpc]
    simp only [List.mem_append, List.mem_cons, Option.some.injEq, reduceCtorEq, or_false]
    tauto
  · intro q hq
    have hq : pc.aside = some q := hq
    rw [hpc] at hq
    cases hq
    exact hnodup.1
  · show (xs ++ ys).map (tidOf entries') = (before ++ after).map some
    rw [List.map_append, List.map_append, hbefore, hafter]
    congr 1 <;>
    · apply List.map_congr_left
      intro q _
      exact tidOf_congr (hvals q)
  · rw [hjoins]
    refine List.Perm.trans ?_ h.joined
    rw [List.append_assoc, List.map_append, List.map_append]
    show (joinsOf outs ++ (some tid :: (before.map some ++ after.map some))).Perm
      (joinsOf outs ++ (before.map some ++ some tid :: after.map some))
    exact List.perm_middle.symm.append_left _
  · intro i st' hst' hmem
    rw [hjoins, List.mem_append, List.mem_singleton] at hmem
    rcases hmem with hmem | heq
    · exact h.ended i st' hst' hmem
    · cases heq
      have hst' : s.threads[tid]? = some st' := hst'
      rw [hst] at hst'
      cases hst'
      exact hdone
  · exact hplace

theorem Process.threadStep_keeps {i : Nat} {r : Resp} {event : Event}
    (hs : s.threadStep i r = some (event, s')) (q : Nat) :
    (s'.entries q).map Node.next = (s.entries q).map Node.next ∧
      tidOf s'.entries q = tidOf s.entries q := by
  simp only [Process.threadStep, Option.bind_eq_bind, Option.bind_eq_some_iff] at hs
  obtain ⟨st, -, node, hnode, ⟨call, t⟩, -, hs⟩ := hs
  cases hs
  dsimp only
  split
  · by_cases hq : q = st.pArg
    · subst hq
      simp [tidOf, hnode]
    · simp [tidOf, Function.update_of_ne hq]
  · exact ⟨rfl, rfl⟩

/-- **A thread's call** leaves the list. -/
theorem Listed.thread (h : Listed outs s ids tids) {i : Nat} {r : Resp} {event : Event}
    (hs : s.threadStep i r = some (event, s')) : Listed (outs ++ [some event]) s' ids tids := by
  have hkeep := Process.threadStep_keeps hs
  simp only [Process.threadStep, Option.bind_eq_bind, Option.bind_eq_some_iff] at hs
  obtain ⟨st, hst, node, hnode, ⟨call, t⟩, hstep, hs⟩ := hs
  cases hs
  have hjoins : joinsOf (outs ++ [some (.thread i node.val.hRecvfd call)]) = joinsOf outs := by
    rw [joinsOf_append]
    exact List.append_nil _
  constructor
  · exact h.links.sameNext fun q _ => (hkeep q).1
  · intro q
    rw [← h.entry q, ← Option.isSome_map, (hkeep q).1, Option.isSome_map]
  · exact h.apart
  · rw [← h.named]
    exact List.map_congr_left fun q _ => (hkeep q).2
  · rw [hjoins]
    show (joinsOf outs ++ tids.map some).Perm
      ((List.range (s.threads.set i { st with thread := t }).length).map some)
    rw [List.length_set]
    exact h.joined
  · intro j st' hst' hmem
    rw [hjoins] at hmem
    have hst' : (s.threads.set i { st with thread := t })[j]? = some st' := hst'
    rw [List.getElem?_set] at hst'
    split at hst'
    · -- a thread that was joined makes no call
      rename_i hij
      subst hij
      exact absurd (h.ended i st hst hmem) (Thread.step_ne_done hstep)
    · exact h.ended j st' hst' hmem
  · exact h.place.sameNext fun q => (hkeep q).1

/-- **The sweep joins a thread**, and takes its entry off the list. The entry that is
off the list still links to the rest of it. -/
theorem Listed.sweepJoined (h : Listed outs s ids tids) {n : Int} {entries : Nodes ThreadArgs}
    {slhFirst : Option Nat} (hpc : s.pc = .sweepJoin p) (hjoin : s.joined p n = some ())
    (hremove : slistRemove s.entries s.slhFirst p s.threads.length
      = some (entries, slhFirst)) :
    ∃ ids' tids', Listed (outs ++ [some (.main (.pthreadJoin (tidOf s.entries p)))])
      { s with pc := .sweepFree p, entries, slhFirst } ids' tids' ∧
      ids'.length + 1 = ids.length := by
  have haside : s.pc.aside = none := by rw [hpc]; rfl
  obtain ⟨node, -, -, hnode, -⟩ := Process.joined_eq_some hjoin
  obtain ⟨xs, ys, hids⟩ := List.append_of_mem (h.mem hnode haside)
  have hlen := h.length_le
  have hlinks := h.links
  rw [hids] at hlen hlinks
  simp only [List.length_append] at hlen
  have hfuel : xs.length ≤ s.threads.length := by omega
  obtain ⟨entries', first', hremove', hlinks', hsame⟩ := slistRemove_links hlinks hfuel
  rw [hremove] at hremove'
  cases hremove'
  have hplace : MainPc.Expects entries slhFirst (xs ++ ys) (.sweepFree p) := by
    intro node' q hnode' hq
    have hnodup := hlinks.nodup
    rw [List.nodup_middle, List.nodup_cons] at hnodup
    have hself : entries p = s.entries p := hsame p fun hp =>
      hnodup.1 (List.mem_append_left _ hp)
    rw [hself] at hnode'
    obtain ⟨-, node, hp, hrest⟩ := hlinks.suffix
    rw [hnode'] at hp
    cases hp
    rw [hrest.head] at hq
    exact List.mem_append_right _ (List.mem_of_head? hq)
  obtain ⟨tids', h'⟩ :=
    h.join hids haside hjoin (slistRemove_sameVals hremove) hlinks' rfl hplace
  refine ⟨xs ++ ys, tids', h', ?_⟩
  rw [hids]
  simp only [List.length_append, List.length_cons]
  omega

/-- **The cleanup joins a thread**, the first of the list. -/
theorem Listed.cleanupJoined (h : Listed outs s ids tids) {n : Int} {slhFirst : Option Nat}
    (hpc : s.pc = .cleanupJoin p) (hjoin : s.joined p n = some ())
    (hremove : slistRemoveHead s.entries s.slhFirst = some slhFirst) :
    ∃ ids' tids', Listed (outs ++ [some (.main (.pthreadJoin (tidOf s.entries p)))])
      { s with pc := .cleanupFree p, slhFirst } ids' tids' ∧ ids'.length + 1 = ids.length := by
  have hfirst : s.slhFirst = some p := by
    have := h.place
    rwa [hpc] at this
  obtain ⟨ys, rfl⟩ : ∃ ys, ids = p :: ys := by
    have hlinks := h.links
    rw [hfirst] at hlinks
    cases ids with
    | nil => cases hlinks
    | cons q ys =>
        cases hlinks.1
        exact ⟨ys, rfl⟩
  obtain ⟨tids', h'⟩ := h.join (List.nil_append _).symm (by rw [hpc]; rfl) hjoin
    (SameVals.refl _) (slistRemoveHead_links h.links hremove)
    (rfl : (MainPc.cleanupFree p).aside = some p) trivial
  exact ⟨ys, tids', h', rfl⟩

/-- **A step of `main`** keeps the books of the list. -/
theorem Listed.main (h : Listed outs s ids tids) {r : MainResp}
    (hs : s.resume r = some s') :
    ∃ ids' tids', Listed (outs ++ [s.mainCall.map .main]) s' ids' tids' := by
  unfold Process.mainCall
  cases Process.resume_cases hs with
  | goOn hpc | noMore hpc | notAccepted hpc | accepted hpc | noMemory hpc | notCreated hpc
  | swept hpc | running hpc =>
      rw [hpc]
      exact ⟨ids, tids, h.quiet rfl rfl rfl rfl (by rw [hpc]; rfl) trivial⟩
  | entry hpc hp =>
      rw [hpc]
      exact ⟨ids, tids, h.newEntry hp (by rw [hpc]; rfl) rfl _⟩
  | created hpc hnode hinsert =>
      rw [hpc]
      exact ⟨_, _, h.newThread hpc rfl
        (by simp [Process.newThread, hnode, hinsert, Process.startSweep])⟩
  | freedFailed hpc | sweepFreed hpc | cleanupFreed hpc =>
      rw [hpc]
      exact ⟨ids, tids, h.free (by rw [hpc]; rfl) rfl rfl trivial⟩
  | complete hpc hnode =>
      rw [hpc]
      exact ⟨ids, tids, h.quiet rfl rfl rfl rfl (by rw [hpc]; rfl)
        (h.mem hnode (by rw [hpc]; rfl))⟩
  | sweepJoined hpc hjoin hremove =>
      rw [hpc]
      obtain ⟨ids', tids', h', -⟩ := h.sweepJoined hpc hjoin hremove
      exact ⟨ids', tids', h'⟩
  | cleanupJoined hpc hjoin hremove =>
      rw [hpc]
      obtain ⟨ids', tids', h', -⟩ := h.cleanupJoined hpc hjoin hremove
      exact ⟨ids', tids', h'⟩
  | empty hpc hfirst | first hpc hfirst =>
      rw [hpc]
      exact ⟨ids, tids, h.quiet rfl rfl rfl rfl (by rw [hpc]; rfl) hfirst⟩
  | closed hpc =>
      rw [hpc]
      refine ⟨ids, tids, h.quiet rfl rfl rfl rfl (by rw [hpc]; rfl) ?_⟩
      have := h.place
      rwa [hpc] at this

/-- **Every run keeps the books of the list.** -/
theorem run_listed {acts : List ProcessAct}
    (h : run Process.step .init acts = some (outs, s)) : ∃ ids tids, Listed outs s ids tids := by
  refine run_history (P := fun _ outs s => ∃ ids tids, Listed outs s ids tids)
    ⟨[], [], listed_init⟩ ?_ h
  rintro acts outs s act out s' - ⟨ids, tids, h⟩ hs
  cases act with
  | main r =>
      simp only [Process.step, Option.bind_eq_bind, Option.bind_eq_some_iff] at hs
      obtain ⟨t, ht, hs⟩ := hs
      cases hs
      exact h.main ht
  | thread tid r =>
      simp only [Process.step, Option.bind_eq_bind, Option.bind_eq_some_iff] at hs
      obtain ⟨⟨event, t⟩, ht, hs⟩ := hs
      cases hs
      exact ⟨ids, tids, h.thread ht⟩
  | signal =>
      cases hs
      exact ⟨ids, tids, h.quiet rfl rfl rfl rfl rfl h.place⟩

/-! ## Where `main` goes -/

/-- What a step of `main` does besides the list. -/
structure MainMoves (s s' : Process) : Prop where
  flag : s'.bAcceptConnections = s.bAcceptConnections
  accept : s'.pc = .accept → s.bAcceptConnections = true
  listening : (∀ ret, s'.pc ≠ .done ret) →
    s'.openFds.count .hSockfd = s.openFds.count .hSockfd
  done : ∀ ret, s'.pc = .done ret → s.pc = .close ∧
    s'.openFds = s.openFds.erase .hSockfd ∧
    ret = if s.bAcceptConnections then -1 else 0

theorem mainMoves_of (hflag : s'.bAcceptConnections = s.bAcceptConnections)
    (hopen : s'.openFds = s.openFds) (haccept : s'.pc ≠ .accept)
    (hdone : ∀ ret, s'.pc ≠ .done ret) : MainMoves s s' :=
  ⟨hflag, fun h => absurd h haccept, fun _ => by rw [hopen], fun ret h => absurd h (hdone ret)⟩

theorem Process.resume_moves {r : MainResp} (h : s.resume r = some s') : MainMoves s s' := by
  cases Process.resume_cases h with
  | goOn hpc hflag => exact ⟨rfl, fun _ => hflag, fun _ => rfl, fun ret hret => (by cases hret)⟩
  | accepted hpc =>
      refine ⟨rfl, fun hacc => (by cases hacc), fun _ => ?_, fun ret hret => (by cases hret)⟩
      exact List.count_cons_of_ne (by simp)
  | closed hpc =>
      refine ⟨rfl, fun hacc => (by cases hacc), fun hnd => absurd rfl (hnd _), ?_⟩
      rintro ret ⟨⟩
      exact ⟨hpc, rfl, rfl⟩
  | noMore | notAccepted | noMemory | entry | created | notCreated | freedFailed | swept
  | complete | running | sweepJoined | sweepFreed | empty | first | cleanupJoined
  | cleanupFreed => refine mainMoves_of rfl rfl ?_ ?_ <;> simp [Process.startSweep]

/-- How `main` ends: with the socket it listens on closed, and with 0 if and only
if a signal came before that. -/
structure SocketEnds (acts : List ProcessAct) (outs : List (Option Event)) (s : Process) :
    Prop where
  flag : s.bAcceptConnections = false ↔ .signal ∈ acts
  listening : (∀ ret, s.pc ≠ .done ret) → s.openFds.count .hSockfd = 1
  done : ∀ ret, s.pc = .done ret → Fd.hSockfd ∉ s.openFds ∧
    ∃ before r after, acts = before ++ .main r :: after ∧
      outs[before.length]? = some (some (.main (.close .hSockfd))) ∧
      (ret = 0 ∧ .signal ∈ before ∨ ret = -1 ∧ .signal ∉ before)

theorem socketEnds_init : SocketEnds [] [] .init where
  flag := by simp [Process.init]
  listening := fun _ => rfl
  done := fun ret h => by cases h

theorem SocketEnds.step {acts : List ProcessAct} {act : ProcessAct} (h : SocketEnds acts outs s)
    (hlen : outs.length = acts.length) (hs : s.step act = some (out, s')) :
    SocketEnds (acts ++ [act]) (outs ++ [out]) s' := by
  -- `main` is done already, or this is its last step
  have hlater : (∀ ret, s'.pc = .done ret → s.pc = .done ret ∧ s'.openFds = s.openFds) →
      ∀ ret, s'.pc = .done ret → Fd.hSockfd ∉ s'.openFds ∧
        ∃ before r after, acts ++ [act] = before ++ .main r :: after ∧
          (outs ++ [out])[before.length]? = some (some (.main (.close .hSockfd))) ∧
          (ret = 0 ∧ .signal ∈ before ∨ ret = -1 ∧ .signal ∉ before) := by
    intro hstay ret hret
    obtain ⟨hpc, hopen⟩ := hstay ret hret
    obtain ⟨hclosed, before, r, after, rfl, hout, hsignal⟩ := h.done ret hpc
    refine ⟨by rwa [hopen], before, r, after ++ [act], by simp, ?_, hsignal⟩
    rw [List.getElem?_append_left (by simp [hlen]), hout]
  cases act with
  | main r =>
      simp only [Process.step, Option.bind_eq_bind, Option.bind_eq_some_iff] at hs
      obtain ⟨t, ht, hs⟩ := hs
      cases hs
      have hmoves := Process.resume_moves ht
      refine ⟨by simp [hmoves.flag, h.flag], fun hnd => ?_, fun ret hret => ?_⟩
      · rw [hmoves.listening hnd]
        apply h.listening
        intro ret hpc
        simp [Process.resume, hpc] at ht
      · obtain ⟨hpc, hopen, hval⟩ := hmoves.done ret hret
        have hcount := h.listening fun ret' hpc' => by rw [hpc] at hpc'; cases hpc'
        refine ⟨?_, acts, r, [], rfl, ?_, ?_⟩
        · rw [hopen, ← List.count_eq_zero, List.count_erase_self, hcount]
        · rw [← hlen, List.getElem?_concat_length]
          simp [Process.mainCall, hpc]
        · rw [hval, ← h.flag]
          cases s.bAcceptConnections <;> simp
  | thread tid r =>
      simp only [Process.step, Option.bind_eq_bind, Option.bind_eq_some_iff] at hs
      obtain ⟨⟨event, t⟩, ht, hs⟩ := hs
      cases hs
      obtain ⟨st, _, _, entries, -, -, -, rfl, -⟩ := Process.threadStep_eq_some ht
      exact ⟨by simp [h.flag], h.listening, hlater fun ret hret => ⟨hret, rfl⟩⟩
  | signal =>
      cases hs
      exact ⟨by simp, h.listening, hlater fun ret hret => ⟨hret, rfl⟩⟩

theorem run_ended {acts : List ProcessAct}
    (h : run Process.step .init acts = some (outs, s)) : SocketEnds acts outs s := by
  refine run_history (P := SocketEnds) socketEnds_init ?_ h
  intro acts outs s act out s' hrun hended hs
  exact hended.step (run_length hrun) hs

end

/-! ## Results -/

/-- Once `main` is done the list is empty: no entry, and no thread that was not
joined. -/
theorem Listed.nil_of_done {outs : List (Option Event)} {s : Process} {ids tids : List Nat}
    {ret : Int} (h : Listed outs s ids tids) (hpc : s.pc = .done ret) :
    s.slhFirst = none ∧ ids = [] ∧ tids = [] := by
  have hfirst : s.slhFirst = none := by
    have := h.place
    rwa [hpc] at this
  obtain rfl : ids = [] := by
    have hlinks := h.links
    rw [hfirst] at hlinks
    cases ids with
    | nil => rfl
    | cons q ids => cases hlinks.1
  refine ⟨hfirst, rfl, ?_⟩
  have hnamed := h.named
  cases tids with
  | nil => rfl
  | cons t tids => cases hnamed

theorem Listed.ended_of_done {outs : List (Option Event)} {s : Process} {ids tids : List Nat}
    {ret : Int} (h : Listed outs s ids tids) (hpc : s.pc = .done ret) :
    ∀ st ∈ s.threads, st.thread.pc = .done := by
  obtain ⟨-, rfl, rfl⟩ := h.nil_of_done hpc
  have hjoined := h.joined
  rw [List.map_nil, List.append_nil] at hjoined
  intro st hst
  obtain ⟨tid, hlt, rfl⟩ := List.mem_iff_getElem.mp hst
  apply h.ended tid _ (List.getElem?_eq_getElem hlt)
  rw [hjoined.mem_iff]
  simp [hlt]

/-- **When `main` is done, nothing is left.** In every run that gets there, over
any connections, failures of `malloc` and `pthread_create`, exits of the threads
and signals, and whatever the sweeps read from the entries they freed: every
thread has ended, and was joined exactly once; every entry was freed and the
list is empty; the socket is closed; and `main` returns 0 if a signal came
before that, and -1 if none did. -/
theorem main_joins_all {acts : List ProcessAct} {outs : List (Option Event)} {s : Process}
    {ret : Int} (h : run Process.step .init acts = some (outs, s)) (hpc : s.pc = .done ret) :
    (∀ st ∈ s.threads, st.thread.pc = .done) ∧
      (joinsOf outs).Perm ((List.range s.threads.length).map some) ∧
      (∀ p, s.entries p = none) ∧ s.slhFirst = none ∧ Fd.hSockfd ∉ s.openFds ∧
      ∃ before r after, acts = before ++ .main r :: after ∧
        outs[before.length]? = some (some (.main (.close .hSockfd))) ∧
        (ret = 0 ∧ .signal ∈ before ∨ ret = -1 ∧ .signal ∉ before) := by
  obtain ⟨ids, tids, hlisted⟩ := run_listed h
  obtain ⟨hclosed, hret⟩ := (run_ended h).done ret hpc
  obtain ⟨hfirst, rfl, rfl⟩ := hlisted.nil_of_done hpc
  have hjoined := hlisted.joined
  rw [List.map_nil, List.append_nil] at hjoined
  refine ⟨hlisted.ended_of_done hpc, hjoined, fun p => ?_, hfirst, hclosed, hret⟩
  rw [← Option.not_isSome_iff_eq_none, hlisted.entry, hpc]
  simp [MainPc.aside, MainPc.freeing]

/-- One client, whose thread ends while `main` is at the cleanup. -/
theorem main_joins_all_one_client :
    let acts : List ProcessAct := [.main .turn, .main .descriptor, .main (.block 0),
      .main (.int 0), .main .turn, .main .turn, .signal, .main .turn, .thread 0 .null,
      .main .turn, .main (.int 0), .main .turn, .main .turn, .main (.int 0)]
    ∃ outs s, run Process.step .init acts = some (outs, s) ∧ s.pc = .done 0 ∧
      (joinsOf outs).Perm ((List.range s.threads.length).map some) ∧
      ∀ p, s.entries p = none := by
  intro acts
  have h : (run Process.step .init acts).map (fun p => p.2.pc) = some (.done 0) := by decide
  obtain ⟨⟨outs, s⟩, hrun, hpc⟩ := Option.map_eq_some_iff.mp h
  obtain ⟨-, hjoins, hentries, -⟩ := main_joins_all hrun hpc
  exact ⟨outs, s, hrun, hpc, hjoins, hentries⟩

/-- Whether `main` returned from `accept`. -/
def isAccept (out : Option Event) : Bool := decide (out = some (.main (.accept .hSockfd)))

theorem Process.mainCall_isAccept (s : Process) :
    isAccept (s.mainCall.map .main) = true ↔ s.pc = .accept := by
  unfold Process.mainCall
  cases hpc : s.pc <;> simp [isAccept]

theorem Process.threadStep_isAccept {s s' : Process} {tid : Nat} {r : Resp} {event : Event}
    (h : s.threadStep tid r = some (event, s')) : isAccept (some event) = false := by
  simp only [Process.threadStep, Option.bind_eq_bind, Option.bind_eq_some_iff] at h
  obtain ⟨_, -, _, -, ⟨_, _⟩, -, h⟩ := h
  cases h
  rfl

/-- **A signal stops `main`.** Once it came, `accept` returns at most once more,
in any run that goes on from there. -/
theorem main_stops {before after : List ProcessAct} {outs outs' : List (Option Event)}
    {s s' : Process} (h : run Process.step .init (before ++ [.signal]) = some (outs, s))
    (h' : run Process.step s after = some (outs', s')) :
    outs'.countP isAccept ≤ 1 := by
  have hflag : s.bAcceptConnections = false := (run_ended h).flag.mpr (by simp)
  have hinv : s'.bAcceptConnections = false ∧
      outs'.countP isAccept + (if s'.pc = .accept then 1 else 0) ≤ 1 := by
    refine run_history (P := fun _ outs s => s.bAcceptConnections = false ∧
      outs.countP isAccept + (if s.pc = .accept then 1 else 0) ≤ 1) ?_ ?_ h'
    · refine ⟨hflag, ?_⟩
      rw [List.countP_nil]
      split <;> omega
    · rintro acts outs t act out t' - ⟨hflag, hle⟩ hs
      rw [List.countP_append, List.countP_singleton]
      cases act with
      | main r =>
          simp only [Process.step, Option.bind_eq_bind, Option.bind_eq_some_iff] at hs
          obtain ⟨u, hu, hs⟩ := hs
          cases hs
          have hmoves := Process.resume_moves hu
          -- `main` is not at `accept` any more
          have hne : t'.pc ≠ .accept := by
            intro hpc
            rw [hmoves.accept hpc] at hflag
            cases hflag
          refine ⟨hmoves.flag.trans hflag, ?_⟩
          rw [if_neg hne]
          split
          · rename_i hc
            rw [if_pos (t.mainCall_isAccept.mp hc)] at hle
            omega
          · omega
      | thread tid r =>
          simp only [Process.step, Option.bind_eq_bind, Option.bind_eq_some_iff] at hs
          obtain ⟨⟨event, u⟩, hu, hs⟩ := hs
          obtain ⟨rfl, rfl⟩ : some event = out ∧ u = t' := by simpa using hs
          have hevent := Process.threadStep_isAccept hu
          obtain ⟨_, _, _, _, -, -, -, rfl, -⟩ := Process.threadStep_eq_some hu
          rw [hevent]
          exact ⟨hflag, hle⟩
      | signal =>
          cases hs
          exact ⟨rfl, hle⟩
  omega

/-- A signal while `main` waits for a client, and the client. -/
theorem main_stops_waiting :
    let after : List ProcessAct := [.main .descriptor, .main .null, .main .turn, .main .turn,
      .main .turn, .main (.int 0)]
    ∃ outs s outs' s', run Process.step .init [.main .turn, .signal] = some (outs, s) ∧
      run Process.step s after = some (outs', s') ∧ s'.pc = .done 0 ∧
      outs'.countP isAccept ≤ 1 := by
  intro after
  have h : (run Process.step .init ([.main .turn, .signal] ++ after)).map (fun p => p.2.pc)
      = some (.done 0) := by decide
  obtain ⟨⟨all, s'⟩, hrun, hpc⟩ := Option.map_eq_some_iff.mp h
  obtain ⟨outs, s, outs', hbefore, hafter, -⟩ := run_append.mp hrun
  exact ⟨outs, s, outs', s', hbefore, hafter, hpc,
    @main_stops [.main .turn] _ _ _ _ _ hbefore hafter⟩

end Aesd.Server
