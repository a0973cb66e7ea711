import Aesd.Server.Whole
import Aesd.Server.Stopping

/-!
# The server can be drained

The whole server can be stopped without cutting anybody off. Once a signal came,
in every state a run reaches, the threads can go on to their ends, one after the
other and each with its own calls, whoever has the mutex; and then `main` joins
them and returns, with all that its connections sent handled
(`server_can_drain`).
-/

namespace Aesd.Server

open Aesd.Lib Aesd.Driver

/-! ## Whose step it is -/

/-- The thread whose call or stream it is. -/
def Act.owner {ι : Type} : Act ι → ι
  | .call i _ _ | .flush i _ _ | .refill i _ => i

theorem Thread.step_pc_ne {t u : Thread} {call : Call} {r : Resp}
    (h : t.step r = some (call, u)) (hlocked : t.pc.locked = false) : u.pc ≠ t.pc := by
  intro hsame
  cases Thread.step_cases h with
  | received hpc hlen hr =>
      obtain ⟨_, _, hpc'⟩ := Thread.received_pc hr
      rw [hpc, hpc'] at hsame
      cases hsame
  | reallocated hpc hr =>
      obtain ⟨-, hpc' | hpc'⟩ := Thread.reallocated_pc hr <;>
      · rw [hpc, hpc'] at hsame
        cases hsame
  | noAddress hpc | address hpc | ended hpc | noMemory hpc | locked hpc =>
      rw [hpc] at hsame
      cases hsame
  | notOpened hpc | opened hpc | printed hpc | number hpc | sought hpc | endOfFile hpc
  | line hpc | notSent hpc | sent hpc | fileClosed hpc | unlocked hpc =>
      rw [hpc] at hlocked
      cases hlocked

section
variable {chunks : Nat → List (List UInt8)} {a₀ a : LogState} {w w' : World Nat}
  {t : Serial Nat} {i : Nat}

/-- A step that leaves all threads but one, in its turn, is that one's. -/
theorem Serializes.owner_eq (h : Serializes chunks a₀ w a t) {act : Act Nat}
    {out : Option (Nat × Call)} (hs : w.step act = some (out, w')) (hsame : SameElse i w w')
    (hturn : w.Turn i) : act.owner = i := by
  by_contra hne
  -- another thread does not have the mutex
  have hlocked : (w.threads act.owner).pc.locked = false := by
    cases hl : (w.threads act.owner).pc.locked with
    | false => rfl
    | true =>
        have hm := (h.holder act.owner).mpr hl
        rcases hturn with hfree | hhas
        · rw [hfree] at hm
          cases hm
        · rw [hhas] at hm
          exact absurd (Option.some.inj hm).symm hne
  cases act with
  | call j n fill =>
      obtain ⟨call, r, w₁, u, hstep, hans, rfl, rfl⟩ := World.step_call hs
      have hself := hsame.threads j hne
      rw [World.setThread_self] at hself
      exact Thread.step_pc_ne hstep hlocked (by rw [hself])
  | flush j n env =>
      have hlocked : (w.threads j).pc.locked = false := hlocked
      rw [(World.step_flush hs).pc] at hlocked
      cases hlocked
  | refill j count =>
      have hlocked : (w.threads j).pc.locked = false := hlocked
      rw [(World.step_refill hs).pc] at hlocked
      cases hlocked

end

/-! ## A step of the world is one of the server -/

section
variable {s s' : Whole} {tid i : Nat} {t : Thread}

/-- **What the thread of a connection can do in the world, it can do in the server.** -/
theorem Agrees.lift (h : Agrees s) (hhandles : s.process.Handles tid i t) {act : Act Nat}
    {out : Option (Nat × Call)} {world : World Nat} (howner : act.owner = i)
    (hs : s.world.step act = some (out, world)) :
    ∃ act' out' process, s.step act' = some (out', ⟨process, world⟩) ∧
      (process = s.process ∧ world.threads i = t ∨
        ∃ r call event u, t.step r = some (call, u) ∧ world.threads i = u ∧
          s.process.threadStep tid r = some (event, process)) := by
  have hconn := hhandles.connection
  have hsame := (h.same tid i t hhandles).2
  cases act with
  | call j n fill =>
      obtain rfl : j = i := howner
      obtain ⟨call, r, w₁, u, hstep, hans, rfl, rfl⟩ := World.step_call hs
      rw [hsame] at hstep
      obtain ⟨hcall, hres⟩ := Thread.step_eq_some.mp hstep
      obtain ⟨pArg, node, hst, -, hnode, -⟩ := hhandles
      obtain ⟨event, process, hthread⟩ :
          ∃ event process, s.process.threadStep tid r = some (event, process) := by
        simp [Process.threadStep, hst, hnode, hstep]
      refine ⟨.call tid n fill, some event, process, ?_,
        .inr ⟨r, call, event, u, hstep, World.setThread_self .., hthread⟩⟩
      simp [Whole.step, Process.step, hconn, hst, hcall, hans, hres, hthread]
  | flush j n env =>
      obtain rfl : j = i := howner
      refine ⟨.flush tid n env, none, s.process, ?_, .inl ⟨rfl, ?_⟩⟩
      · simp [Whole.step, hconn, hs]
      · rw [(World.step_flush hs).threads, hsame]
  | refill j count =>
      obtain rfl : j = i := howner
      refine ⟨.refill tid count, none, s.process, ?_, .inl ⟨rfl, ?_⟩⟩
      · simp [Whole.step, hconn, hs]
      · rw [(World.step_refill hs).threads, hsame]

end

/-! ## The threads run to their ends -/

/-- A server that a signal has reached, whose list is `ids`. -/
structure Draining (chunks : Nat → List (List UInt8)) (a₀ : LogState) (s : Whole)
    (ids : List Nat) : Prop where
  agrees : Agrees s
  stopping : Stopping s.process ids
  stale : ¬ s.process.Stale
  ongoing : ∃ a t, Ongoing chunks a₀ s.world a t

theorem Process.threadStep_unfinished {s s' : Process} {tid i : Nat} {t u : Thread} {r : Resp}
    {call : Call} {event : Event} (hhandles : s.Handles tid i t)
    (hstep : t.step r = some (call, u)) (hs : s.threadStep tid r = some (event, s')) :
    s'.unfinished + (if u.pc = .done then 1 else 0) = s.unfinished := by
  have hbalance := Process.threadStep_balance hs
  obtain ⟨-, hpc, -⟩ := Process.threadStep_handles hs hhandles hstep
  obtain ⟨pArg, node, hst, -⟩ := hhandles
  have hends : s.endsConnection (.thread tid r) = decide (u.pc = .done) := by
    simp only [Process.endsConnection, hst]
    rw [Bool.eq_iff_iff, decide_eq_true_eq]
    exact (Thread.step_done_iff hstep).symm
  simp only [Process.owned, hpc, hends, decide_eq_true_eq] at hbalance
  omega

section
variable {chunks : Nat → List (List UInt8)} {a₀ : LogState} {s s' : Whole} {ids : List Nat}
  {tid i n : Nat} {t : Thread}

/-- **A thread in its turn goes on**, with its connection, or ends. -/
theorem Draining.goesOn (h : Draining chunks a₀ s ids) (hf : Servable chunks a₀ n)
    (hhandles : s.process.Handles tid i t) (hturn : s.world.Turn i) :
    ∃ act out s', s.step act = some (out, s') ∧ Draining chunks a₀ s' ids ∧
      s'.world.Turn i ∧ s'.world.left i < s.world.left i ∧
      (s'.process.unfinished < s.process.unfinished ∨
        s'.process.unfinished ≤ s.process.unfinished ∧ ∃ u, s'.process.Handles tid i u) := by
  obtain ⟨a, serial, hongoing⟩ := h.ongoing
  have hne : (s.world.threads i).pc ≠ .done := by
    rw [(h.agrees.same tid i t hhandles).2]
    obtain ⟨-, -, -, hne, -⟩ := hhandles
    exact hne
  obtain ⟨wact, wout, world, hs, hsame, hturn', hlt⟩ := hongoing.goesOn hf hturn hne
  have howner := hongoing.serializes.owner_eq hs hsame hturn
  obtain ⟨act, out, process, hstep, hprocess⟩ := h.agrees.lift hhandles howner hs
  have hstopping : Stopping process ids ∧ ¬ process.Stale := by
    rcases hprocess with ⟨rfl, -⟩ | ⟨r, call, event, u, -, -, hthread⟩
    · exact ⟨h.stopping, h.stale⟩
    · obtain ⟨h', -, hiff⟩ := h.stopping.thread hthread
      exact ⟨h', fun hstale => h.stale (hiff.mp hstale)⟩
  refine ⟨act, out, ⟨process, world⟩, hstep,
    ⟨h.agrees.step hstep, hstopping.1, hstopping.2, hongoing.step hs⟩, hturn', hlt, ?_⟩
  · rcases hprocess with ⟨rfl, -⟩ | ⟨r, call, event, u, hcall, -, hthread⟩
    · exact .inr ⟨Nat.le_refl _, t, hhandles⟩
    · have hcount := Process.threadStep_unfinished hhandles hcall hthread
      obtain ⟨-, -, -, -, -, hiff⟩ := Process.threadStep_handles hthread hhandles hcall
      show process.unfinished < _ ∨ process.unfinished ≤ _ ∧ ∃ u, process.Handles tid i u
      by_cases hdone : u.pc = .done
      · rw [if_pos hdone] at hcount
        exact .inl (by omega)
      · rw [if_neg hdone] at hcount
        exact .inr ⟨by omega, u, (hiff tid i u).mpr (.inl ⟨rfl, rfl, rfl, hdone⟩)⟩

/-- **A thread runs to its end**, in its turn. -/
theorem Draining.finish_thread (h : Draining chunks a₀ s ids) (hf : Servable chunks a₀ n)
    (hhandles : s.process.Handles tid i t) (hturn : s.world.Turn i) :
    ∃ acts outs s', run Whole.step s acts = some (outs, s') ∧ Draining chunks a₀ s' ids ∧
      s'.process.unfinished < s.process.unfinished := by
  refine run_terminates (r := (· < ·)) wellFounded_lt
    (I := fun s' m => m = s'.world.left i ∧ Draining chunks a₀ s' ids ∧ s'.world.Turn i ∧
      (s'.process.unfinished < s.process.unfinished ∨
        s'.process.unfinished ≤ s.process.unfinished ∧ ∃ u, s'.process.Handles tid i u))
    (F := fun s' => Draining chunks a₀ s' ids ∧
      s'.process.unfinished < s.process.unfinished) ?_
    ⟨rfl, h, hturn, .inr ⟨Nat.le_refl _, t, hhandles⟩⟩
  rintro s₁ _ ⟨rfl, h₁, hturn₁, hlt | ⟨hle, u, hhandles₁⟩⟩ hF
  · exact absurd ⟨h₁, hlt⟩ hF
  · obtain ⟨act, out, s₂, hs, h₂, hturn₂, hleft, hgone⟩ := h₁.goesOn hf hhandles₁ hturn₁
    refine ⟨act, out, s₂, _, hs, ⟨rfl, h₂, hturn₂, ?_⟩, hleft⟩
    rcases hgone with hlt | ⟨hle₂, hhandles₂⟩
    · exact .inl (Nat.lt_of_lt_of_le hlt hle)
    · exact .inr ⟨Nat.le_trans hle₂ hle, hhandles₂⟩

/-- While a thread has not ended, there is one whose turn it is. -/
theorem Draining.turn (h : Draining chunks a₀ s ids)
    (hlive : ∃ st ∈ s.process.threads, st.thread.pc ≠ .done) :
    ∃ tid i t, s.process.Handles tid i t ∧ s.world.Turn i := by
  obtain ⟨a, serial, hongoing⟩ := h.ongoing
  cases hm : s.world.mutex with
  | none =>
      obtain ⟨st, hst, hne⟩ := hlive
      obtain ⟨tid, htid⟩ := List.getElem?_of_mem hst
      obtain ⟨i, hi⟩ := h.agrees.handles tid st htid hne
      exact ⟨tid, i, _, hi, .inl hm⟩
  | some i =>
      have hlocked := (hongoing.serializes.holder i).mp hm
      rcases h.agrees.others i with hinit | hdone | ⟨tid, t, hhandles⟩
      · rw [hinit] at hlocked
        cases hlocked
      · rw [hdone] at hlocked
        cases hlocked
      · exact ⟨tid, i, t, hhandles, .inr hm⟩

/-- **All threads run to their ends**, first the one that has the mutex. -/
theorem Draining.finish (h : Draining chunks a₀ s ids) (hf : Servable chunks a₀ n) :
    ∃ acts outs s', run Whole.step s acts = some (outs, s') ∧ Draining chunks a₀ s' ids ∧
      ∀ st ∈ s'.process.threads, st.thread.pc = .done := by
  induction hm : s.process.unfinished using Nat.strong_induction_on generalizing s with
  | _ m ih =>
      subst hm
      by_cases hdone : ∀ st ∈ s.process.threads, st.thread.pc = .done
      · exact ⟨[], [], s, rfl, h, hdone⟩
      · simp only [not_forall] at hdone
        obtain ⟨st, hst, hne⟩ := hdone
        obtain ⟨tid, i, t, hhandles, hturn⟩ := h.turn ⟨st, hst, hne⟩
        obtain ⟨acts, outs, s₁, hrun, h₁, hlt⟩ := h.finish_thread hf hhandles hturn
        obtain ⟨acts', outs', s₂, hrun', h₂, hall⟩ := ih _ hlt h₁ rfl
        exact ⟨acts ++ acts', outs ++ outs', s₂,
          run_append.mpr ⟨outs, s₁, outs', hrun, hrun', rfl⟩, h₂, hall⟩

/-- **`main` runs to its end**, once all threads have ended. -/
theorem Draining.stop (h : Draining chunks a₀ s ids)
    (hdone : ∀ st ∈ s.process.threads, st.thread.pc = .done) :
    ∃ acts outs s', run Whole.step s acts = some (outs, s') ∧
      ∃ ret, s'.process.pc = .done ret := by
  refine run_terminates (r := (· < ·)) wellFounded_lt
    (I := fun (s' : Whole) m => (∃ ids, Stopping s'.process ids ∧ m = s'.process.pc.rank ids) ∧
      ¬ s'.process.Stale ∧ ∀ st ∈ s'.process.threads, st.thread.pc = .done)
    (F := fun (s' : Whole) => ∃ ret, s'.process.pc = .done ret) ?_
    ⟨⟨ids, h.stopping, rfl⟩, h.stale, hdone⟩
  rintro s₁ _ ⟨⟨ids₁, h₁, rfl⟩, hstale, hdone₁⟩ hF
  obtain ⟨_, _, hlisted⟩ := h₁.listed
  rcases hlisted.goesOn (fun ret hpc => hF ⟨ret, hpc⟩) hstale with
    ⟨tid, st, -, hst, hne⟩ | ⟨r, process, hto⟩
  · exact absurd (hdone₁ st (List.mem_of_getElem? hst)) hne
  · obtain ⟨ids', h', hlt⟩ := h₁.main hto.resume
    refine ⟨.main r, s₁.process.mainCall.map .main, { s₁ with process }, _, ?_,
      ⟨⟨ids', h', rfl⟩, hto.stale, ?_⟩, hlt⟩
    · simp [Whole.step, Process.step, hto.resume]
    · show ∀ st ∈ process.threads, st.thread.pc = .done
      rw [hto.threads]
      exact hdone₁

end

/-! ## Runs -/

/-- A signal is not forgotten. -/
theorem Whole.run_signal {driver : DriverState} {chunks : Nat → List (List UInt8)}
    {acts : List WholeAct} {outs : List (Option Event)} {s : Whole}
    (h : run Whole.step (.init driver chunks) acts = some (outs, s))
    (hsignal : .signal ∈ acts) : s.process.bAcceptConnections = false := by
  revert hsignal
  refine run_history (P := fun acts _ s =>
    .signal ∈ acts → s.process.bAcceptConnections = false) (fun hsignal => (by cases hsignal)) ?_ h
  intro acts outs s act out s' _ ih hs hsignal
  -- the step is the signal, or leaves the flag
  have hbefore : WholeAct.signal ≠ act → s.process.bAcceptConnections = false := by
    intro hne
    rcases List.mem_append.mp hsignal with hmem | hmem
    · exact ih hmem
    · exact absurd (List.mem_singleton.mp hmem) hne
  cases Whole.step_cases hs with
  | main hresume =>
      rw [← hbefore (by simp)]
      exact (Process.resume_moves hresume).flag
  | signal => rfl
  | call hhandles hans hstep hthread =>
      obtain ⟨-, -, -, hflag, -⟩ := Process.threadStep_handles hthread hhandles hstep
      rw [← hbefore (by simp)]
      exact hflag
  | stream hact hworld hthreads => exact hbefore hact.symm

/-- **The server can be drained.** Take any reachable device on which no allocation
failed, and clients as `recv` can give them, whose counters and texts have room. In
every state that a run of the server whose threads' calls succeed reaches after a
signal, whatever `main` and the threads are doing, but for a `main` that follows a
link it read from freed memory to something that is no entry: the server can go on
until every thread has ended and `main` returns, with all handled that the
connections with a thread have sent. -/
theorem server_can_drain (limit : Nat) (hl : limit ≤ 2 ^ 56) (fPos : Nat → Int)
    {ops : List Op} {rs : List Reply} {d : Device}
    (h : run Device.step (.init limit hl fPos) ops = some (rs, d))
    (hmem : ∀ r ∈ rs, r.ret ≠ -eNoMem) (n : Nat)
    (hpend : d.driver.aesdDevice.writeBufferSize ≤ n) (hlimit : 2 * n ≤ limit)
    (hsmall : 10 * limit < 2 ^ 31) (chunks : Nat → List (List UInt8))
    (hsizes : ∀ i, ∀ c ∈ chunks i, 0 < c.length ∧ c.length ≤ recvBufLen - 1)
    (hcount : ∀ i, allocated (chunks i) < 2 ^ 31)
    (hsent : ∀ i, (chunks i).flatten.length ≤ n)
    {acts : List WholeAct} {outs : List (Option Event)} {s : Whole}
    (hrun : run Whole.step (.init d.driver chunks) acts = some (outs, s))
    (hsignal : .signal ∈ acts)
    (hnext : ∀ p, s.process.pc = .sweep (some p) → (s.process.entries p).isSome = true) :
    ∃ acts' outs' s' ret, run Whole.step s acts' = some (outs', s') ∧
      s'.process.pc = .done ret ∧ (∀ st ∈ s'.process.threads, st.thread.pc = .done) ∧
      ∀ i, Served (outs ++ outs') i → s'.world.inbox i = [] := by
  obtain ⟨b, hb, hbt, -⟩ := run_tracks h
  have hf : Servable chunks b.state n :=
    servable_of_run hb hbt hmem hpend hlimit hsmall hsizes hcount hsent
  obtain ⟨hagrees, wacts, wouts, hworld, -⟩ := Whole.run_world hrun
  obtain ⟨pacts, pouts, hprocess, -⟩ := Whole.run_process hrun
  obtain ⟨ids, tids, hlisted⟩ := run_listed hprocess
  obtain ⟨acts₁, outs₁, t, a, hserial, -, ha⟩ := run_serializes hbt.state hworld
  have hstale : ¬ s.process.Stale := by
    rintro ⟨p, hpc, hnone⟩
    have hsome := hnext p hpc
    rw [hnone] at hsome
    cases hsome
  have hstart : Draining chunks b.state s ids :=
    ⟨hagrees, ⟨⟨pouts, tids, hlisted⟩, Whole.run_signal hrun hsignal⟩, hstale, a, t,
      ⟨acts₁, outs₁, hserial⟩, ha⟩
  obtain ⟨more, outs', s', hmore, h', hended⟩ := hstart.finish hf
  obtain ⟨more', outs'', s'', hmore', ret, hpc⟩ := h'.stop hended
  have hrest : run Whole.step s (more ++ more') = some (outs' ++ outs'', s'') :=
    run_append.mpr ⟨outs', s', outs'', hmore, hmore', rfl⟩
  have hwhole := run_append.mpr ⟨outs, s, outs' ++ outs'', hrun, hrest, rfl⟩
  exact ⟨_, _, s'', ret, hrest, hpc, Whole.threads_ended hwhole hpc,
    fun i hserved => (Whole.served_drained hwhole hpc hserved).2⟩

/-- Two clients, of whom the first has its stream open when the signal comes. -/
theorem server_can_drain_connected :
    let call := fun tid => WholeAct.call tid 0 fun _ => 0
    let acts : List WholeAct := [.main .turn, .main .descriptor, .main (.block 0),
      .main (.int 0), .main .turn, .main .turn, .main .turn, .main .descriptor,
      .main (.block 1), .main (.int 0), .main .turn, call 0, call 1, call 0, call 1, call 0,
      call 1, call 0, call 0, .signal]
    ∃ outs s, run Whole.step (.init (aesdInitModule 4096 (by decide)) fun _ => [[97, newline]])
        acts = some (outs, s) ∧ s.world.mutex = some 0 ∧ (s.world.streams 0).isSome ∧
      ∃ acts' outs' s' ret, run Whole.step s acts' = some (outs', s') ∧
        s'.process.pc = .done ret ∧ (∀ st ∈ s'.process.threads, st.thread.pc = .done) ∧
        ∀ i, Served (outs ++ outs') i → s'.world.inbox i = [] := by
  intro call acts
  have h : (run Whole.step (.init (aesdInitModule 4096 (by decide)) fun _ => [[97, newline]])
      acts).any (fun p => p.2.process.pc = .sweep (some 0) ∧ (p.2.process.entries 0).isSome ∧
        p.2.world.mutex = some 0 ∧ (p.2.world.streams 0).isSome) = true := by
    decide +kernel
  obtain ⟨⟨outs, s⟩, hrun, hp⟩ := (Option.any_eq_true _ _).mp h
  obtain ⟨hpc, hentry, hm, hstream⟩ : s.process.pc = .sweep (some 0) ∧
      (s.process.entries 0).isSome ∧ s.world.mutex = some 0 ∧ (s.world.streams 0).isSome :=
    of_decide_eq_true hp
  have hinit : run Device.step (.init 4096 (by decide) fun _ => 0) []
      = some ([], .init 4096 (by decide) fun _ => 0) := rfl
  refine ⟨outs, s, hrun, hm, hstream, server_can_drain 4096 (by decide) (fun _ => 0) hinit
    (by simp) 99 (by decide) (by decide) (by decide) _ (fun _ => by decide +kernel)
    (fun _ => by decide +kernel) (fun _ => by decide +kernel) hrun (by simp [acts]) ?_⟩
  intro p hsweep
  rw [hpc] at hsweep
  cases hsweep
  exact hentry

end Aesd.Server
