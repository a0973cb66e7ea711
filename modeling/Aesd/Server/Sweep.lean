import Aesd.Server.Main
import Aesd.Lib.Machine

/-!
# The sweep

The loop of `main` that joins and frees the threads that are complete, on any
list of entries. The loop frees an entry and then takes the link to the next
one from it. What that read gives is an argument of the model, and each such
read is noted: as long as the memory still holds the link, the sweep does
everything else it should (`sweep_spec`), so the fault shows only in the note
(`sweepCorrect_iff`).
-/

namespace Aesd.Server

open Aesd.Lib

/-! ## The loop -/

/-- The list and its entries during the sweep, and what the sweep has done:
the threads it joined, the entries it freed, and those it read after that. -/
structure Sweep where
  slhFirst : Option Nat
  entries : Nodes ThreadArgs
  joined : List (Option Nat)
  freed : List Nat
  readFreed : List Nat

/-- `pthread_join`, `SLIST_REMOVE` and `free`. -/
def Sweep.reap (s : Sweep) (p len : Nat) : Option Sweep := do
  let node ← s.entries p
  let (entries, slhFirst) ← slistRemove s.entries s.slhFirst p len
  return { s with
    slhFirst
    entries := Function.update entries p none
    joined := s.joined ++ [node.val.tid]
    freed := s.freed ++ [p] }

/-- `SLIST_NEXT`. In an entry that is gone it reads `stale`. -/
def Sweep.next (stale : Nat → Option Nat) (s : Sweep) (p : Nat) : Sweep × Option Nat :=
  match slistNext s.entries p with
  | some next => (s, next)
  | none => ({ s with readFreed := s.readFreed ++ [p] }, stale p)

/-- One turn of the loop. -/
def Sweep.turn (stale : Nat → Option Nat) (len : Nat) (s : Sweep) (p : Nat) :
    Option (Sweep × Option Nat) := do
  let node ← s.entries p
  let s ← if node.val.bIsThreadComplete then s.reap p len else some s
  return s.next stale p

/-- The loop from `p_slist_entry` on. -/
def Sweep.loop (stale : Nat → Option Nat) (len : Nat) :
    Nat → Sweep → Option Nat → Option Sweep
  | 0, _, _ => none
  | _ + 1, s, none => some s
  | fuel + 1, s, some pSlistEntry => do
      let (s, pSlistEntry) ← s.turn stale len pSlistEntry
      Sweep.loop stale len fuel s pSlistEntry

/-- The sweep of a list of less than `fuel` entries. -/
def sweep (stale : Nat → Option Nat) (fuel : Nat) (slhFirst : Option Nat)
    (entries : Nodes ThreadArgs) : Option Sweep :=
  Sweep.loop stale fuel fuel ⟨slhFirst, entries, [], [], []⟩ slhFirst

/-! ## What it should do -/

/-- `b_is_thread_complete` of an entry. -/
def isComplete (entries : Nodes ThreadArgs) (p : Nat) : Bool :=
  (entries p).any fun node => node.val.bIsThreadComplete

/-- The `tid` of an entry. -/
def tidOf (entries : Nodes ThreadArgs) (p : Nat) : Option Nat :=
  (entries p).bind fun node => node.val.tid

/-- Of a list that had `entries`, the part `before` is swept and the part
`rest` is not: each complete entry was joined and freed, in order, and the
others are on the list. -/
structure Swept (entries : Nodes ThreadArgs) (before rest : List Nat) (s : Sweep) :
    Prop where
  joined : s.joined = (before.filter (isComplete entries)).map (tidOf entries)
  freed : s.freed = before.filter (isComplete entries)
  gone : ∀ p ∈ before.filter (isComplete entries), s.entries p = none
  links : Links s.entries s.slhFirst
    (before.filter (fun p => !isComplete entries p) ++ rest)
  vals : ∀ p ∈ before.filter (fun p => !isComplete entries p),
    (s.entries p).map Node.val = (entries p).map Node.val
  same : ∀ p ∈ rest, s.entries p = entries p

/-- The sweep of the list `ids` ends, joins and frees each complete entry
once, leaves the others in order, and reads no entry it has freed. -/
def SweepCorrect (stale : Nat → Option Nat) (slhFirst : Option Nat)
    (entries : Nodes ThreadArgs) (ids : List Nat) : Prop :=
  ∀ fuel, ids.length < fuel → ∃ s, sweep stale fuel slhFirst entries = some s ∧
    Swept entries ids [] s ∧ s.freed.Nodup ∧ s.readFreed = []

/-! ## One turn -/

section
variable {stale : Nat → Option Nat} {entries : Nodes ThreadArgs} {s s' : Sweep}
  {before rest : List Nat} {p len : Nat} {next : Option Nat}

theorem Sweep.next_of_live {node : Node ThreadArgs} (hp : s.entries p = some node) :
    s.next stale p = (s, node.next) := by
  simp [Sweep.next, slistNext, hp]

theorem Sweep.next_of_gone (hp : s.entries p = none) :
    s.next stale p = ({ s with readFreed := s.readFreed ++ [p] }, stale p) := by
  simp [Sweep.next, slistNext, hp]

theorem Sweep.turn_of_running {node : Node ThreadArgs} (hp : s.entries p = some node)
    (hc : node.val.bIsThreadComplete = false) :
    s.turn stale len p = some (s, node.next) := by
  simp [Sweep.turn, hp, hc, Sweep.next_of_live hp]

/-- A complete entry is taken off the list and freed, and then read. -/
theorem Sweep.turn_of_complete {node : Node ThreadArgs} {entries' : Nodes ThreadArgs}
    {slhFirst : Option Nat} (hp : s.entries p = some node)
    (hc : node.val.bIsThreadComplete = true)
    (hr : slistRemove s.entries s.slhFirst p len = some (entries', slhFirst)) :
    s.turn stale len p = some (⟨slhFirst, Function.update entries' p none,
      s.joined ++ [node.val.tid], s.freed ++ [p], s.readFreed ++ [p]⟩, stale p) := by
  simp [Sweep.turn, Sweep.reap, hp, hc, hr, Sweep.next_of_gone]

theorem Sweep.turn_cases (h : s.turn stale len p = some (s', next)) :
    ∃ node, s.entries p = some node ∧
      ((node.val.bIsThreadComplete = false ∧ s' = s ∧ next = node.next) ∨
      (node.val.bIsThreadComplete = true ∧ next = stale p ∧ ∃ entries' slhFirst,
        slistRemove s.entries s.slhFirst p len = some (entries', slhFirst) ∧
        s' = ⟨slhFirst, Function.update entries' p none, s.joined ++ [node.val.tid],
          s.freed ++ [p], s.readFreed ++ [p]⟩)) := by
  cases hp : s.entries p with
  | none => simp [Sweep.turn, hp] at h
  | some node =>
      refine ⟨node, rfl, ?_⟩
      cases hc : node.val.bIsThreadComplete with
      | false =>
          rw [Sweep.turn_of_running hp hc] at h
          cases h
          exact .inl ⟨rfl, rfl, rfl⟩
      | true =>
          cases hr : slistRemove s.entries s.slhFirst p len with
          | none => simp [Sweep.turn, Sweep.reap, hp, hc, hr] at h
          | some list =>
              rw [Sweep.turn_of_complete hp hc hr] at h
              cases h
              exact .inr ⟨rfl, rfl, _, _, rfl, rfl⟩

/-- The entry the sweep comes to next is as it was, and its link is to the one
after it. -/
theorem Swept.node (h : Swept entries before (p :: rest) s) :
    ∃ node, s.entries p = some node ∧ entries p = some node ∧ node.next = rest.head? ∧
      isComplete entries p = node.val.bIsThreadComplete ∧ tidOf entries p = node.val.tid := by
  obtain ⟨-, node, hp, hrest⟩ := h.links.suffix
  have hentries : entries p = some node := (h.same p List.mem_cons_self).symm.trans hp
  exact ⟨node, hp, hentries, hrest.head, by simp [isComplete, hentries],
    by simp [tidOf, hentries]⟩

theorem swept_nil (h : Links entries next rest) :
    Swept entries [] rest ⟨next, entries, [], [], []⟩ :=
  ⟨rfl, rfl, nofun, h, nofun, fun _ _ => rfl⟩

theorem Swept.turn_running (stale : Nat → Option Nat) (len : Nat)
    (h : Swept entries before (p :: rest) s) (hc : isComplete entries p = false) :
    s.turn stale len p = some (s, rest.head?) ∧ Swept entries (before ++ [p]) rest s := by
  obtain ⟨node, hp, hentries, hnext, hcomplete, -⟩ := h.node
  have hfilter : (before ++ [p]).filter (isComplete entries)
      = before.filter (isComplete entries) := by simp [hc]
  have hkept : (before ++ [p]).filter (fun p => !isComplete entries p)
      = before.filter (fun p => !isComplete entries p) ++ [p] := by simp [hc]
  refine ⟨?_, ?_, ?_, ?_, ?_, ?_, ?_⟩
  · rw [← hnext]
    exact Sweep.turn_of_running hp (hcomplete.symm.trans hc)
  · rw [hfilter, h.joined]
  · rw [hfilter, h.freed]
  · rw [hfilter]
    exact h.gone
  · rw [hkept, List.append_assoc]
    exact h.links
  · intro q hq
    rw [hkept] at hq
    rcases List.mem_append.mp hq with hq | hq
    · exact h.vals q hq
    · obtain rfl := List.mem_singleton.mp hq
      rw [hp, hentries]
  · exact fun q hq => h.same q (List.mem_cons_of_mem _ hq)

/-- Taking a complete entry off the list, if its link is still there when it
is read. -/
theorem Swept.turn_complete (h : Swept entries before (p :: rest) s)
    (hc : isComplete entries p = true) (hstale : slistNext entries p = some (stale p))
    (hlen : before.length ≤ len) :
    ∃ s', s.turn stale len p = some (s', rest.head?) ∧
      Swept entries (before ++ [p]) rest s' ∧ s'.readFreed = s.readFreed ++ [p] := by
  obtain ⟨node, hp, hentries, hnext, hcomplete, htid⟩ := h.node
  have hfilter : (before ++ [p]).filter (isComplete entries)
      = before.filter (isComplete entries) ++ [p] := by simp [hc]
  have hkept : (before ++ [p]).filter (fun p => !isComplete entries p)
      = before.filter (fun p => !isComplete entries p) := by simp [hc]
  have hnodup := h.links.nodup
  rw [List.nodup_append, List.nodup_cons] at hnodup
  obtain ⟨-, ⟨hprest, -⟩, hdisjoint⟩ := hnodup
  have hnext' : stale p = rest.head? := by
    rw [slistNext, hentries, Option.map_some, hnext] at hstale
    exact (Option.some.inj hstale).symm
  obtain ⟨entries', slhFirst, hremove, hlinks, hsame, hvals⟩ := slistRemove_free h.links
    ((List.length_filter_le _ _).trans hlen)
  refine ⟨_, by rw [Sweep.turn_of_complete hp (hcomplete.symm.trans hc) hremove, hnext'],
    ⟨?_, ?_, ?_, ?_, ?_, ?_⟩, rfl⟩
  · rw [hfilter, List.map_append, ← h.joined, List.map_singleton, htid]
  · rw [hfilter, ← h.freed]
  · intro q hq
    rw [hfilter] at hq
    rcases List.mem_append.mp hq with hq | hq
    · have hgone := h.gone q hq
      -- no entry of the list is gone
      have hnot : q ∉ before.filter (fun p => !isComplete entries p) ++ p :: rest := by
        intro hm
        obtain ⟨node', hq'⟩ := h.links.node hm
        rw [hgone] at hq'
        cases hq'
      rw [List.mem_append, List.mem_cons, not_or, not_or] at hnot
      exact (hsame q hnot.1 hnot.2.1).trans hgone
    · obtain rfl := List.mem_singleton.mp hq
      exact Function.update_self ..
  · rw [hkept]
    exact hlinks
  · intro q hq
    rw [hkept] at hq
    exact (hvals q (hdisjoint q hq p List.mem_cons_self)).trans (h.vals q hq)
  · intro q hq
    refine (hsame q (fun hm => ?_) (ne_of_mem_of_not_mem hq hprest)).trans
      (h.same q (List.mem_cons_of_mem _ hq))
    exact hdisjoint q hm q (List.mem_cons_of_mem _ hq) rfl

/-! ## The whole loop -/

/-- **The loop from any point on**, as long as the freed entries still hold
their links. -/
theorem Swept.loop {fuel : Nat} (h : Swept entries before rest s)
    (hstale : ∀ p ∈ rest.filter (isComplete entries),
      slistNext entries p = some (stale p))
    (hfuel : rest.length < fuel) (hlen : before.length + rest.length ≤ len) :
    ∃ s', Sweep.loop stale len fuel s rest.head? = some s' ∧
      Swept entries (before ++ rest) [] s' ∧
      s'.readFreed = s.readFreed ++ rest.filter (isComplete entries) := by
  induction rest generalizing before s fuel with
  | nil =>
      obtain ⟨fuel, rfl⟩ := Nat.exists_eq_add_of_lt hfuel
      exact ⟨s, rfl, by rwa [List.append_nil], by simp⟩
  | cons p rest ih =>
      rw [List.length_cons] at hfuel hlen
      obtain ⟨fuel, rfl⟩ : ∃ k, fuel = k + 1 := ⟨fuel - 1, by omega⟩
      have hlt : rest.length < fuel := by omega
      have hbefore : before.length ≤ len := by omega
      have hlen' : (before ++ [p]).length + rest.length ≤ len := by
        rw [List.length_append, List.length_singleton]
        omega
      rw [List.head?_cons, Sweep.loop]
      cases hc : isComplete entries p with
      | false =>
          obtain ⟨hturn, hswept⟩ := h.turn_running stale len hc
          rw [List.filter_cons_of_neg (by simp [hc])] at hstale ⊢
          obtain ⟨s', hloop, hswept', hread⟩ := ih hswept hstale hlt hlen'
          refine ⟨s', ?_, by rwa [List.append_assoc] at hswept', hread⟩
          rw [hturn]
          exact hloop
      | true =>
          rw [List.filter_cons_of_pos hc] at hstale ⊢
          obtain ⟨s₁, hturn, hswept, hread₁⟩ :=
            h.turn_complete hc (hstale p List.mem_cons_self) hbefore
          obtain ⟨s', hloop, hswept', hread⟩ := ih hswept
            (fun q hq => hstale q (List.mem_cons_of_mem _ hq)) hlt hlen'
          refine ⟨s', ?_, by rwa [List.append_assoc] at hswept', ?_⟩
          · rw [hturn]
            exact hloop
          · rw [hread, hread₁, List.append_assoc, List.singleton_append]

/-- **What the sweep does on any list**, if a freed entry holds its link until
it is read: everything it should, and it reads every entry it has freed. -/
theorem sweep_spec (stale : Nat → Option Nat) {slhFirst : Option Nat} {ids : List Nat}
    {fuel : Nat} (h : Links entries slhFirst ids)
    (hstale : ∀ p ∈ ids.filter (isComplete entries), slistNext entries p = some (stale p))
    (hfuel : ids.length < fuel) :
    ∃ s, sweep stale fuel slhFirst entries = some s ∧ Swept entries ids [] s ∧
      s.freed.Nodup ∧ s.readFreed = ids.filter (isComplete entries) := by
  have hlen : ([] : List Nat).length + ids.length ≤ fuel := by
    rw [List.length_nil]
    omega
  obtain ⟨s, hloop, hswept, hread⟩ := (swept_nil h).loop hstale hfuel hlen
  rw [List.nil_append] at hswept hread
  refine ⟨s, by rw [sweep, ← hloop, ← h.head], hswept, ?_, hread⟩
  rw [hswept.freed]
  exact h.nodup.filter _

/-- What was noted stays noted. -/
theorem Sweep.loop_readFreed {fuel : Nat}
    (h : Sweep.loop stale len fuel s next = some s') {p : Nat} (hp : p ∈ s.readFreed) :
    p ∈ s'.readFreed := by
  induction fuel generalizing s next with
  | zero => cases h
  | succ fuel ih =>
      cases next with
      | none =>
          cases h
          exact hp
      | some q =>
          obtain ⟨⟨s₁, next⟩, hturn, hloop⟩ := Option.bind_eq_some_iff.mp h
          obtain ⟨node, -, ⟨-, rfl, -⟩ | ⟨-, -, _, _, -, rfl⟩⟩ := Sweep.turn_cases hturn
          · exact ih hloop hp
          · exact ih hloop (List.mem_append_left _ hp)

/-- **A complete entry is read after its `free`**, wherever it is on the list
and whatever the read gives. -/
theorem Sweep.loop_reads {fuel : Nat} {ids : List Nat}
    (h : Sweep.loop stale len fuel s next = some s') (hlinks : Links s.entries next ids)
    (hc : ∃ p ∈ ids, isComplete s.entries p = true) : s'.readFreed ≠ [] := by
  induction ids generalizing next fuel with
  | nil => simp at hc
  | cons q ids ih =>
      obtain ⟨rfl, node, hq, hrest⟩ := hlinks
      cases fuel with
      | zero => cases h
      | succ fuel =>
          obtain ⟨⟨s₁, next⟩, hturn, hloop⟩ := Option.bind_eq_some_iff.mp h
          obtain ⟨node', hq', ⟨hrun, rfl, rfl⟩ | ⟨-, -, _, _, -, rfl⟩⟩ :=
            Sweep.turn_cases hturn
          · rw [hq] at hq'
            cases hq'
            have hnot : isComplete s₁.entries q = false := by simpa [isComplete, hq] using hrun
            refine ih hloop hrest ?_
            simpa [hnot] using hc
          · exact List.ne_nil_of_mem (Sweep.loop_readFreed hloop (List.mem_append_right _
              (List.mem_singleton.mpr rfl)))

theorem SweepCorrect.running {slhFirst : Option Nat} {ids : List Nat}
    (hs : SweepCorrect stale slhFirst entries ids) (h : Links entries slhFirst ids) :
    ∀ p ∈ ids, isComplete entries p = false := by
  obtain ⟨s, hsweep, -, -, hread⟩ := hs (ids.length + 1) (Nat.lt_succ_self _)
  intro p hp
  by_contra hc
  exact Sweep.loop_reads hsweep h ⟨p, hp, by simpa using hc⟩ hread

/-- **Exactly when the sweep is correct**: for every list of entries, whatever
freed memory holds, the sweep does all it should and reads no freed entry if
and only if there is nothing to sweep. -/
theorem sweepCorrect_iff (stale : Nat → Option Nat) {slhFirst : Option Nat}
    {entries : Nodes ThreadArgs} {ids : List Nat} (h : Links entries slhFirst ids) :
    SweepCorrect stale slhFirst entries ids ↔
      ∀ p ∈ ids, isComplete entries p = false := by
  constructor
  · exact fun hs => hs.running h
  · intro hrunning fuel hfuel
    have hnone : ids.filter (isComplete entries) = [] := by simpa using hrunning
    obtain ⟨s, hsweep, hswept, hnodup, hread⟩ :=
      sweep_spec stale h (by rw [hnone]; nofun) hfuel
    exact ⟨s, hsweep, hswept, hnodup, by rw [hread, hnone]⟩

/-- Two entries on a list, `complete` or not. -/
def twoEntries (complete : Bool) : Nodes ThreadArgs
  | 0 => some ⟨⟨.client 0, complete, some 0⟩, some 1⟩
  | 1 => some ⟨⟨.client 1, false, some 1⟩, none⟩
  | _ => none

theorem twoEntries_links (complete : Bool) :
    Links (twoEntries complete) (some 0) [0, 1] :=
  ⟨rfl, _, rfl, rfl, _, rfl, rfl⟩

theorem sweepCorrect_iff_running :
    SweepCorrect (fun _ => none) (some 0) (twoEntries false) [0, 1] :=
  (sweepCorrect_iff _ (twoEntries_links false)).mpr (by decide)

/-- One thread has ended, and its entry still holds its link when it is read. -/
theorem sweep_reads_freed :
    ¬ ∀ (stale : Nat → Option Nat) (slhFirst : Option Nat) (entries : Nodes ThreadArgs)
      (ids : List Nat), Links entries slhFirst ids →
      SweepCorrect stale slhFirst entries ids := by
  intro hall
  have hlinks := twoEntries_links true
  have h := (hall (fun _ => some 1) _ _ _ hlinks).running hlinks 0 (by simp)
  cases h

end

/-! ## The sweep of the process -/

/-- The `tid`s that `main` joined. -/
def joinsOf (events : List (Option Event)) : List (Option Nat) :=
  events.filterMap fun
    | some (.main (.pthreadJoin tid)) => some tid
    | _ => none

/-- The entries that `main` freed. -/
def freesOf (events : List (Option Event)) : List Nat :=
  events.filterMap fun
    | some (.main (.free p)) => some p
    | _ => none

/-- The threads that are complete can be joined. -/
def Process.Joinable (s : Process) : Prop :=
  ∀ p, isComplete s.entries p = true → s.joined p 0 = some ()

/-- The process at the head of the loop, with the list as the sweep has it. -/
def Process.atSweep (s : Process) (w : Sweep) (pc : MainPc) : Process :=
  { s with pc, slhFirst := w.slhFirst, entries := w.entries }

section
variable {stale : Nat → Option Nat} {s : Process} {w w' : Sweep} {p : Nat}
  {next : Option Nat}

theorem isComplete_congr {entries entries' : Nodes ThreadArgs} {q : Nat}
    (h : (entries' q).map Node.val = (entries q).map Node.val) :
    isComplete entries' q = isComplete entries q := by
  have hany : ∀ entries : Nodes ThreadArgs, isComplete entries q
      = ((entries q).map Node.val).any ThreadArgs.bIsThreadComplete := by
    intro entries
    rw [Option.any_map]
    rfl
  rw [hany, hany, h]

theorem Process.joined_congr {s s' : Process} {q : Nat} (n : Int)
    (h : (s'.entries q).map Node.val = (s.entries q).map Node.val)
    (hthreads : s'.threads = s.threads) : s'.joined q n = s.joined q n := by
  cases hq : s.entries q with
  | none =>
      rw [hq, Option.map_none, Option.map_eq_none_iff] at h
      simp [Process.joined, hq, h]
  | some node =>
      rw [hq, Option.map_some] at h
      obtain ⟨node', hq', hval⟩ := Option.map_eq_some_iff.mp h
      simp [Process.joined, hq, hq', hval, hthreads]

/-- Taking an entry away leaves the others as they are to be joined. -/
theorem Process.Joinable.free {pc pc' : MainPc} {entries' : Nodes ThreadArgs}
    {joined : List (Option Nat)} {freed readFreed : List Nat} {slhFirst : Option Nat}
    (h : (s.atSweep w pc).Joinable) (hvals : SameVals w.entries entries') :
    (s.atSweep ⟨slhFirst, Function.update entries' p none, joined, freed, readFreed⟩
      pc').Joinable := by
  intro q hq
  have hqp : q ≠ p := by
    rintro rfl
    simp [Process.atSweep, isComplete] at hq
  have hval : (Function.update entries' p none q).map Node.val
      = (w.entries q).map Node.val := by
    rw [Function.update_of_ne hqp]
    exact hvals q
  have hjoined : (s.atSweep ⟨slhFirst, Function.update entries' p none, joined, freed,
      readFreed⟩ pc').joined q 0 = (s.atSweep w pc).joined q 0 :=
    Process.joined_congr 0 hval rfl
  exact hjoined.trans (h q ((isComplete_congr hval).symm.trans hq))

/-- **One turn of the loop in `main`.** -/
theorem Sweep.turn_process
    (h : w.turn stale s.threads.length p = some (w', next))
    (hj : (s.atSweep w (.sweep (some p))).Joinable) :
    ∃ (rs : List MainResp) (events : List (Option Event)),
      run Process.step (s.atSweep w (.sweep (some p))) (rs.map .main)
        = some (events, s.atSweep w' (.sweep next)) ∧
      w'.joined = w.joined ++ joinsOf events ∧ w'.freed = w.freed ++ freesOf events ∧
      (s.atSweep w' (.sweep next)).Joinable := by
  obtain ⟨node, hp, ⟨hc, rfl, rfl⟩ | ⟨hc, rfl, entries', slhFirst, hremove, rfl⟩⟩ :=
    Sweep.turn_cases h
  · refine ⟨[.turn], [none], ?_, by simp [joinsOf], by simp [freesOf], hj⟩
    simp [run, Process.step, Process.resume, Process.atSweep, Process.mainCall, hp, hc]
  · have hjoin : (s.atSweep w (.sweepJoin p)).joined p 0 = some () :=
      hj p (by simp [Process.atSweep, isComplete, hp, hc])
    have hvals := slistRemove_sameVals hremove
    obtain ⟨node', hp', -⟩ := hvals.node hp
    refine ⟨[.turn, .int 0, .link (stale p)],
      [none, some (.main (.pthreadJoin node.val.tid)), some (.main (.free p))], ?_,
      by simp [joinsOf], by simp [freesOf], hj.free hvals⟩
    have h1 : (s.atSweep w (.sweep (some p))).step (.main .turn)
        = some (none, s.atSweep w (.sweepJoin p)) := by
      simp [Process.step, Process.resume, Process.atSweep, Process.mainCall, hp, hc]
    have h2 : (s.atSweep w (.sweepJoin p)).step (.main (.int 0))
        = some (some (.main (.pthreadJoin node.val.tid)),
          { s with pc := .sweepFree p, entries := entries', slhFirst }) := by
      simp only [Process.atSweep] at hjoin
      simp [Process.step, Process.resume, Process.atSweep, Process.mainCall, hjoin,
        hremove, hp]
    have h3 : ({ s with pc := .sweepFree p, entries := entries', slhFirst } : Process).step
        (.main (.link (stale p))) = some (some (.main (.free p)),
          s.atSweep ⟨slhFirst, Function.update entries' p none,
            w.joined ++ [node.val.tid], w.freed ++ [p], w.readFreed ++ [p]⟩
            (.sweep (stale p))) := by
      simp [Process.step, Process.resume, Process.free, Process.atSweep,
        Process.mainCall, hp']
    exact run_cons.mpr ⟨_, _, _, h1, run_cons.mpr ⟨_, _, _, h2,
      run_cons.mpr ⟨_, _, _, h3, rfl, rfl⟩, rfl⟩, rfl⟩

theorem joinsOf_append (xs ys : List (Option Event)) :
    joinsOf (xs ++ ys) = joinsOf xs ++ joinsOf ys := List.filterMap_append

theorem freesOf_append (xs ys : List (Option Event)) :
    freesOf (xs ++ ys) = freesOf xs ++ freesOf ys := List.filterMap_append

/-- **The loop in `main`** makes the calls of the sweep. -/
theorem Sweep.loop_process {fuel : Nat}
    (h : Sweep.loop stale s.threads.length fuel w next = some w')
    (hj : (s.atSweep w (.sweep next)).Joinable) :
    ∃ (rs : List MainResp) (events : List (Option Event)),
      run Process.step (s.atSweep w (.sweep next)) (rs.map .main)
        = some (events, s.atSweep w' .loop) ∧
      w'.joined = w.joined ++ joinsOf events ∧ w'.freed = w.freed ++ freesOf events := by
  induction fuel generalizing w next with
  | zero => cases h
  | succ fuel ih =>
      cases next with
      | none =>
          cases h
          refine ⟨[.turn], [none], ?_, by simp [joinsOf], by simp [freesOf]⟩
          simp [run, Process.step, Process.resume, Process.atSweep, Process.mainCall]
      | some p =>
          obtain ⟨⟨w₁, next⟩, hturn, hloop⟩ := Option.bind_eq_some_iff.mp h
          obtain ⟨rs, events, hrun, hjoined, hfreed, hj₁⟩ := Sweep.turn_process hturn hj
          obtain ⟨rs', events', hrun', hjoined', hfreed'⟩ := ih hloop hj₁
          refine ⟨rs ++ rs', events ++ events', ?_, ?_, ?_⟩
          · rw [List.map_append]
            exact run_append.mpr ⟨_, _, _, hrun, hrun', rfl⟩
          · rw [hjoined', hjoined, joinsOf_append, List.append_assoc]
          · rw [hfreed', hfreed, freesOf_append, List.append_assoc]

/-- **The sweep of a process** whose freed entries still hold their links until
they are read: `main` gets back to the head of its loop, it has joined and
freed the threads that are complete, and the others are on the list. -/
theorem process_sweep {ids : List Nat} (hpc : s.pc = .sweep s.slhFirst)
    (h : Links s.entries s.slhFirst ids) (hlen : ids.length ≤ s.threads.length)
    (hj : s.Joinable) :
    ∃ (rs : List MainResp) (events : List (Option Event)) (s' : Process),
      run Process.step s (rs.map .main) = some (events, s') ∧ s'.pc = .loop ∧
      joinsOf events = (ids.filter (isComplete s.entries)).map (tidOf s.entries) ∧
      freesOf events = ids.filter (isComplete s.entries) ∧
      Links s'.entries s'.slhFirst (ids.filter fun p => !isComplete s.entries p) := by
  have hstale : ∀ p ∈ ids.filter (isComplete s.entries),
      slistNext s.entries p = some ((s.entries p).bind Node.next) := by
    intro p hp
    obtain ⟨node, hnode⟩ := h.node (List.mem_of_mem_filter hp)
    simp [slistNext, hnode]
  have hbound : ([] : List Nat).length + ids.length ≤ s.threads.length := by
    rwa [List.length_nil, Nat.zero_add]
  obtain ⟨w, hloop, hswept, -⟩ :=
    (swept_nil h).loop hstale (Nat.lt_succ_self _) hbound
  rw [← h.head] at hloop
  rw [List.nil_append] at hswept
  have hs : s.atSweep ⟨s.slhFirst, s.entries, [], [], []⟩ (.sweep s.slhFirst) = s := by
    rw [← hpc]
    rfl
  obtain ⟨rs, events, hrun, hjoined, hfreed⟩ := Sweep.loop_process hloop (by rwa [hs])
  rw [hs] at hrun
  have hlinks := hswept.links
  rw [List.append_nil] at hlinks
  exact ⟨rs, events, _, hrun, rfl, hjoined.symm.trans hswept.joined,
    hfreed.symm.trans hswept.freed, hlinks⟩

end

end Aesd.Server
