import Pciem.Protopciem.BackendSteps
import Pciem.Protopciem.CardSteps
import Pciem.Protopciem.DriverSteps
import Pciem.Protopciem.Turns

namespace Pciem.Protopciem.Answers

open Library.TransitionSystem Protopciem.Device Invariant DriverSteps CardSteps BackendSteps Turns

section Run

variable {connected : Bool} {s s' : Machine}

theorem inv_step (h : Inv connected s) (hstep : Step connected s s') : Inv connected s' := by
  obtain ⟨t, h⟩ := h
  cases hstep with
  | call call hcaller hcmd => exact ⟨_, holds_call h hcaller hcmd⟩
  | submit hcaller => exact ⟨_, holds_submit h hcaller⟩
  | busy hcaller hpending =>
    rw [not_busy h hcaller] at hpending
    cases hpending
  | enter hcaller => exact ⟨_, holds_enter h hcaller⟩
  | execute hcaller =>
    by_cases hbefore : t = .before
    · subst hbefore
      exact holds_execute_before h hcaller
    · exact ⟨t, holds_execute_flight h hbefore hcaller⟩
  | wake hcaller hdone => exact ⟨_, holds_wake h hcaller hdone⟩
  | fetch hcaller => exact ⟨_, holds_fetch h hcaller⟩
  | check hcaller => exact ⟨_, holds_check h hcaller⟩
  | close hcaller => exact ⟨_, holds_close h hcaller⟩
  | leave hcaller => exact ⟨_, holds_leave h hcaller⟩
  | interrupt hhandler hirq => exact ⟨_, holds_interrupt h hirq⟩
  | handle hhandler => exact ⟨_, holds_handle h hhandler⟩
  | queueWork hhandler => exact ⟨_, holds_queueWork h hhandler⟩
  | startWork hwork hqueued => exact ⟨_, holds_startWork h hqueued⟩
  | readLo hwork => exact ⟨_, holds_readLo h hwork⟩
  | readHi hwork => exact ⟨_, holds_readHi h hwork⟩
  | work hwork => exact ⟨_, holds_work h hwork⟩
  | complete hwork => exact ⟨_, holds_complete h hwork⟩
  | drop hcard hring hr => exact ⟨t, holds_drop h hcard hring hr⟩
  | test hcard hring => exact inv_test h hcard hring
  | busyStatus hcard => exact inv_busyStatus h hcard
  | localCmd hcard => exact ⟨_, holds_localCmd h hcard⟩
  | localData hcard => exact ⟨_, holds_localData h hcard⟩
  | answer hcard => exact ⟨_, holds_answer h hcard⟩
  | inject hcard => exact ⟨_, holds_inject h hcard⟩
  | read hcard => exact ⟨_, holds_read h hcard⟩
  | send hcard => exact ⟨_, holds_send h hcard⟩
  | next hcard hack => exact ⟨_, holds_next h hcard hack⟩
  | last hcard hack => exact ⟨t, holds_last h hcard hack⟩
  | pop hcard => exact ⟨t, holds_pop h hcard⟩
  | ack hthread hcard => exact ⟨t, holds_ack h hthread hcard⟩
  | respond ok hthread hcard => exact ⟨_, holds_respond ok h hcard⟩
  | raise hthread hcard => exact ⟨_, holds_raise h hcard⟩
  | storeAnswer hthread => exact ⟨_, holds_storeAnswer h hthread⟩
  | injectAnswer hthread => exact ⟨_, holds_injectAnswer h hthread⟩
  | register hbackend hqemu hr => exact ⟨_, holds_register h hqemu hr⟩
  | command hbackend hqemu hlen => exact ⟨_, holds_command h hqemu⟩
  | refuse hbackend hqemu hlen => exact ⟨_, holds_refuse h hqemu⟩
  | process hbackend hqemu => exact ⟨_, holds_process h hbackend hqemu⟩
  | crash hbackend hqemu => exact ⟨_, holds_crash h hbackend hqemu⟩
  | acknowledge hbackend => exact ⟨t, holds_acknowledge h hbackend⟩
  | misread hbackend hqemu => exact (not_misread h hbackend hqemu).elim
  | misreadDma hbackend hqemu => exact (not_misread_dma h hbackend hqemu).elim

theorem inv_of_reachable (h : (protopciem connected).Reachable s) : Inv connected s :=
  h.invariant (fun _ hs ↦ ⟨.before, holds_fresh hs⟩) fun _ _ ↦ inv_step

/-- The card will have its acknowledgement, and goes on then. -/
theorem acking_progress (h : Acking (link s)) (hthread : s.qemuThread = .idle)
    (hseen : s.waitingForAck = false → ∃ s', Step connected s s') :
    ∃ s', Step connected s s' := by
  obtain hl | hl | hl := h.cases_of
  · obtain ⟨-, -, hbackend, -⟩ := of_link hl
    exact ⟨_, .acknowledge hbackend⟩
  · obtain ⟨-, htoCard, -, -⟩ := of_link hl
    exact ⟨_, .ack hthread htoCard⟩
  · obtain ⟨-, -, -, hwaiting⟩ := of_link hl
    exact hseen hwaiting

/-- The event of the command is not behind what the card handles. -/
theorem ring_progress (h : Holds connected s .ring)
    (hwaits : ∀ call, s.caller ≠ .executing call [.push .cmd]) : ∃ s', Step connected s s' := by
  have hmem : .cmd ∈ unseen s := (h.seen rfl).resolve_right fun hpush ↦ hpush.elim hwaits
  have haside := h.aside rfl
  cases hcard : s.card with
  | poll =>
    unfold unseen at hmem
    rw [hcard] at hmem
    cases hring : s.ring with
    | nil =>
      rw [hring] at hmem
      cases hmem
    | cons r ring =>
      by_cases hr : r = .cmd
      · subst hr
        exact ⟨_, .test hcard hring⟩
      · exact ⟨_, .drop hcard hring hr⟩
  | popping => exact ⟨_, .pop hcard⟩
  | await rest =>
    rw [hcard] at haside
    cases rest with
    | nil =>
      exact acking_progress haside.acking (h.qemuThread rfl) fun hack ↦ ⟨_, .last hcard hack⟩
    | cons r rest => cases haside
  | took | localCmd | localData | answering | forward | send =>
    rw [hcard] at haside
    cases haside

theorem card_progress (h : Holds connected s .card) : ∃ s', Step connected s s' := by
  obtain ⟨call, -, -, -, hexecutes⟩ := h.turn
  generalize hcard : s.card = card at hexecutes
  cases hexecutes with
  | took => exact ⟨_, .busyStatus hcard⟩
  | localCmd => exact ⟨_, .localCmd hcard⟩
  | localData => exact ⟨_, .localData hcard⟩
  | @answering stores =>
    cases stores with
    | nil => exact ⟨_, .inject hcard⟩
    | cons w stores => exact ⟨_, .answer hcard⟩

theorem forward_progress (h : Holds connected s .forward) (hexited : s.backend ≠ .exited) :
    ∃ s', Step connected s s' := by
  obtain ⟨call, -, -, -, -, hrelays⟩ := h.turn
  have hthread := h.qemuThread rfl
  generalize hcard : s.card = card at hrelays
  generalize hl : link s = l at hrelays
  cases hrelays with
  | reading => exact ⟨_, .read hcard⟩
  | sending => exact ⟨_, .send hcard⟩
  | @sent r done rest hlist hcopied =>
    obtain ⟨htoQemu, -, hbackend, -⟩ := of_link hl
    by_cases hr : r = .cmd
    · subst hr
      cases hlen : dmaLength (backendWrite s.regs .cmd (s.bar0 .cmd)) with
      | none => exact ⟨_, .refuse hbackend htoQemu hlen⟩
      | some len => exact ⟨_, .command hbackend htoQemu hlen⟩
    · exact ⟨_, .register hbackend htoQemu hr⟩
  | taken hlist hcopied hacking =>
    exact acking_progress (hl ▸ hacking) hthread fun hack ↦ ⟨_, .next hcard hack⟩
  | asked =>
    obtain ⟨-, htoCard, -, -⟩ := of_link hl
    exact ⟨_, .respond true hthread htoCard⟩
  | fed =>
    obtain ⟨htoQemu, -, hbackend, -⟩ := of_link hl
    exact ⟨_, .process hbackend htoQemu⟩
  | exited =>
    obtain ⟨-, -, hbackend, -⟩ := of_link hl
    exact absurd hbackend hexited

theorem raised_progress (h : Holds connected s .raised) : ∃ s', Step connected s s' := by
  obtain ⟨call, -, -, -, -, hraises⟩ := h.turn
  generalize hl : link s = l at hraises
  cases hraises
  all_goals
    obtain ⟨-, htoCard, -, -⟩ := of_link hl
    exact ⟨_, .raise (h.qemuThread rfl) htoCard⟩

theorem storing_progress (h : Holds connected s .storing) : ∃ s', Step connected s s' := by
  obtain ⟨call, -, -, -, -, -, stores, hthread, -⟩ := h.turn
  cases stores with
  | nil => exact ⟨_, .injectAnswer hthread⟩
  | cons w stores => exact ⟨_, .storeAnswer hthread⟩

theorem work_progress (h : Holds connected s .work) : ∃ s', Step connected s s' := by
  obtain ⟨call, -, -, hworks, -⟩ := h.turn
  generalize hwork : s.work = work at hworks
  cases hworks with
  | readLo => exact ⟨_, .readLo hwork⟩
  | readHi => exact ⟨_, .readHi hwork⟩
  | @writing ops =>
    cases ops with
    | nil => exact ⟨_, .complete hwork⟩
    | cons op ops => exact ⟨_, .work hwork⟩

/-- As long as a call waits, some party can go on. -/
theorem wait_progress {t : Token} {call : Call} (h : Holds connected s t)
    (hcaller : s.caller = .executing call []) (hexited : s.backend ≠ .exited) :
    ∃ s', Step connected s s' := by
  cases t with
  | before =>
    obtain ⟨-, hprepares⟩ := h.turn
    rw [hcaller] at hprepares
    obtain ⟨-, early, hsplit, -⟩ := hprepares
    cases early
    all_goals cases hsplit
  | ring =>
    refine ring_progress h fun call' hpush ↦ ?_
    rw [hcaller] at hpush
    cases hpush
  | card => exact card_progress h
  | forward => exact forward_progress h hexited
  | raised => exact raised_progress h
  | storing => exact storing_progress h
  | irq => exact ⟨_, .interrupt (h.handler rfl) h.irq⟩
  | handler =>
    obtain ⟨call, -, -, -, ops, hhandler, -⟩ := h.turn
    cases ops with
    | nil => exact ⟨_, .queueWork hhandler⟩
    | cons op ops => exact ⟨_, .handle hhandler⟩
  | queued => exact ⟨_, .startWork (h.work rfl) h.queued⟩
  | work => exact work_progress h
  | done => exact ⟨_, .wake hcaller h.completion⟩
  | after =>
    obtain ⟨call', hcall | hcall | hcall⟩ := h.turn.2.2
    all_goals
      rw [hcaller] at hcall
      cases hcall

/-- In any interleaving of the driver with its interrupt, of the two threads of the card and of the
backend, every call that returns has the answer to its own command and no error, even where the card
does not know the command; the backend has processed the commands that are for it once each and in
order, and has taken no message for one of another kind; and as long as a call waits, some party can
go on. -/
theorem commands_answered (connected : Bool) (s : Machine)
    (hs : (protopciem connected).Reachable s) :
    (∀ r ∈ s.returned, r.2 = .ok (answer connected r.1)) ∧
    (∃ calls, calls <+: current s.caller ∧
      s.jobs = jobsOf connected (s.returned.map Prod.fst ++ calls)) ∧
    s.backend ≠ .lost ∧
    ∀ call, s.caller = .executing call [] → s.backend ≠ .exited → ∃ s', Step connected s s' := by
  obtain ⟨t, h⟩ := inv_of_reachable hs
  refine ⟨h.returned, ⟨if t.processed then current s.caller else [], ?_, h.jobs⟩, h.not_lost,
    fun call hcaller hexited ↦ wait_progress h hcaller hexited⟩
  split
  · exact List.prefix_refl _
  · exact List.nil_prefix

end Run

section Example

def fresh : Machine where
  bar0 _ := 0
  ring := []
  irq := false
  caller := .out
  operationPending := false
  opCompletion := false
  lastResult := 0
  handler := .idle
  queued := false
  work := .idle
  card := .poll
  waitingForAck := false
  qemuThread := .idle
  toQemu := []
  toCard := []
  backend := .idle
  regs _ := 0
  jobs := []
  returned := []

theorem reachable_fresh (connected : Bool) : (protopciem connected).Reachable fresh :=
  .init ⟨rfl, rfl, rfl, rfl, rfl, rfl, rfl, rfl, rfl, rfl, rfl, rfl, rfl, rfl, rfl, rfl, rfl, rfl,
    rfl⟩

/-- A frame is for the backend, and what doubles 21 is for the card. -/
def frame : Call := ⟨cmdDmaFrame, 0, 0x123456000, fbSize⟩

def double : Call := ⟨cmdAdd, 21, 0, 0⟩

/-- The frame has been asked for, and all have gone on until it has returned. -/
def framed : Machine := rounds true { fresh with caller := .submitting frame (submit frame) } 80

/-- The second call has been made then, and waits. -/
def waiting : Machine := rounds true { framed with caller := .submitting double (submit double) } 10

theorem reachable_waiting : (protopciem true).Reachable waiting := by
  have hframed : (protopciem true).Reachable framed :=
    reachable_rounds ((reachable_fresh true).step (.call frame rfl (by decide))) 80
  have hout : framed.caller = .out := by decide +kernel
  exact reachable_rounds (hframed.step (.call double hout (by decide))) 10

/-- The frame has returned, the backend has processed it, and the second call will not be left. -/
theorem commands_answered_frame :
    waiting.returned.map Prod.fst = [frame] ∧
    (∀ r ∈ waiting.returned, r.2 = .ok (answer true r.1)) ∧
    waiting.jobs = [⟨cmdDmaFrame, 0x123456000, fbSize⟩] ∧
    waiting.backend ≠ .lost ∧
    waiting.caller = .executing double [] ∧ ∃ s', Step true waiting s' := by
  obtain ⟨hreturned, -, hlost, hprogress⟩ := commands_answered true waiting reachable_waiting
  have hcaller : waiting.caller = .executing double [] := by decide +kernel
  refine ⟨by decide +kernel, hreturned, by decide +kernel, hlost, hcaller, ?_⟩
  exact hprogress double hcaller (by decide +kernel)

end Example

end Pciem.Protopciem.Answers
