import Pciem.Library.BitField
import Pciem.Protopciem.Device
import Mathlib.Data.List.Nodup

namespace Pciem.Protopciem.Invariant

open Library.BitField Protopciem.Device

/-- Whose turn it is: of a command under way one party at a time goes on, the others wait for it
or go through events that are not its own. -/
inductive Token
  | before | ring | card | forward | raised | storing | irq | handler | queued | work | done
  | after
  deriving DecidableEq

section Registers

/-- The registers after a part of a write. -/
def reach (regs : Regs) : Mmio → Regs
  | .store r v => Function.update regs r v
  | .push _ => regs

/-- The events that a part of a write raises. -/
def raised : Mmio → List Reg
  | .store _ _ => []
  | .push r => [r]

theorem mmio_eq (s : Machine) (op : Mmio) :
    s.mmio op = { s with bar0 := reach s.bar0 op, ring := s.ring ++ raised op } := by
  cases op with
  | store r v =>
    change s.store r v = _
    unfold Machine.store reach raised
    rw [List.append_nil]
  | push r => rfl

/-- The registers once all has been stored. -/
def settle (regs : Regs) (stores : List (Reg × BitVec 32)) : Regs :=
  stores.foldl (fun regs w ↦ Function.update regs w.1 w.2) regs

/-- The command is in the registers, with what belongs to it. -/
structure Loaded (call : Call) (regs : Regs) : Prop where
  cmd : regs .cmd = call.cmd
  data : ¬ Moves call.cmd → regs .data = call.data
  src : Moves call.cmd → srcAddr regs = call.src
  len : Moves call.cmd → regs .dmaLen = call.len

theorem Loaded.update {call : Call} {regs : Regs} {r : Reg} {v : BitVec 32}
    (h : Loaded call regs) (hr : r = .status ∨ r = .resultLo ∨ r = .resultHi) :
    Loaded call (Function.update regs r v) := by
  have hne {q : Reg} (hq : q ≠ .status ∧ q ≠ .resultLo ∧ q ≠ .resultHi) :
      Function.update regs r v q = regs q := by
    refine Function.update_of_ne (fun heq ↦ ?_) ..
    subst heq
    rcases hr with hr | hr | hr
    exacts [hq.1 hr, hq.2.1 hr, hq.2.2 hr]
  constructor
  · rw [hne (by decide)]
    exact h.cmd
  · rw [hne (by decide)]
    exact h.data
  · unfold srcAddr
    rw [hne (by decide), hne (by decide)]
    exact h.src
  · rw [hne (by decide)]
    exact h.len

/-- What a command is answered with. -/
def answer (connected : Bool) (call : Call) : BitVec 64 :=
  if Forwards connected call.cmd then 0 else (processCommandLocal call.cmd call.data).2

/-- The answer is in the registers. -/
structure Answered (connected : Bool) (call : Call) (regs : Regs) : Prop where
  cmd : regs .cmd = 0
  result : regs .resultHi ++ regs .resultLo = answer connected call

theorem halves_append (x : BitVec 64) : x.extractLsb' 32 32 ++ x.setWidth 32 = x := by
  have hlow : x.setWidth 32 = x.extractLsb' 0 32 := by
    apply BitVec.eq_of_getLsbD_eq
    intro i hi
    simp [hi]
  rw [hlow]
  refine (extractLsb'_append_extractLsb' x 0 32 32).trans ?_
  simp

/-- Commands that are about memory have no data, so nothing depends on it. -/
theorem processCommandLocal_of_moves {cmd : BitVec 32} (h : Moves cmd) (data data' : BitVec 32) :
    processCommandLocal cmd data = processCommandLocal cmd data' := by
  rcases h with rfl | rfl
  all_goals rfl

theorem Loaded.processCommandLocal {call : Call} {regs : Regs} (h : Loaded call regs) :
    processCommandLocal call.cmd (regs .data) = processCommandLocal call.cmd call.data := by
  by_cases hmoves : Moves call.cmd
  · exact processCommandLocal_of_moves hmoves _ _
  · rw [h.data hmoves]

/-- Every status of the card has a bit that the interrupt handler looks at. -/
theorem processCommandLocal_status (cmd data : BitVec 32) :
    (processCommandLocal cmd data).1 &&& (statusDone ||| statusError) ≠ 0 := by
  unfold Device.processCommandLocal
  split_ifs
  all_goals
    dsimp only
    decide

theorem backendComplete_status (regs : Regs) :
    backendComplete regs .status &&& (statusDone ||| statusError) ≠ 0 := by
  intro h
  have hbit := congrArg (BitVec.getLsbD · 1) h
  unfold backendComplete at hbit
  rw [Function.update_self] at hbit
  simp [statusDone, statusError, statusBusy] at hbit

theorem answered_localStores {connected : Bool} {call : Call} (regs : Regs)
    (h : ¬ Forwards connected call.cmd) (status : BitVec 32) :
    Answered connected call (settle regs
      (localStores status (processCommandLocal call.cmd call.data).2)) ∧
    settle regs (localStores status (processCommandLocal call.cmd call.data).2) .status =
      status := by
  refine ⟨⟨rfl, ?_⟩, rfl⟩
  unfold answer
  rw [if_neg h]
  exact halves_append _

theorem answered_qemuStores {connected : Bool} {call : Call} (regs : Regs)
    (h : Forwards connected call.cmd) (status : BitVec 32) :
    Answered connected call (settle regs (qemuStores status 0)) ∧
    settle regs (qemuStores status 0) .status = status := by
  refine ⟨⟨rfl, ?_⟩, rfl⟩
  unfold answer
  rw [if_pos h]
  exact halves_append 0

/-- What the caller has written once it stores the command. -/
theorem loaded_written (call : Call) (regs : Regs) :
    Loaded call ((submit call ++ execute call).foldl reach regs) := by
  unfold submit execute
  by_cases hmoves : Moves call.cmd
  · simp only [if_pos hmoves]
    exact ⟨rfl, fun h ↦ absurd hmoves h, fun _ ↦ halves_append _, fun _ ↦ rfl⟩
  · simp only [if_neg hmoves]
    exact ⟨rfl, fun _ ↦ rfl, fun h ↦ absurd h hmoves, fun h ↦ absurd h hmoves⟩

/-- The parts of the writes of a call up to the store of the command do not touch CMD. -/
theorem execute_split (call : Call) : ∃ ops, execute call =
    ops ++ [.store .cmd call.cmd, .push .cmd] ∧ ∀ v, .store .cmd v ∉ ops := by
  unfold execute
  split_ifs
  all_goals
    refine ⟨_, rfl, fun v hv ↦ ?_⟩
    simp [pciWriteReg] at hv

theorem submit_untouched (call : Call) (v : BitVec 32) : .store .cmd v ∉ submit call := by
  unfold submit
  split_ifs
  all_goals simp [pciWriteReg64, pciWriteReg]

theorem reach_cmd {regs : Regs} {op : Mmio} (h : ∀ v, op ≠ .store .cmd v) :
    reach regs op .cmd = regs .cmd := by
  cases op with
  | push => rfl
  | store r v =>
    refine Function.update_of_ne (fun heq ↦ ?_) ..
    exact h v (by rw [heq])

end Registers

section Invariant

/-- The call has stored its command and waits, or has still to raise the event. -/
def InFlight (caller : Caller) (call : Call) : Prop :=
  caller = .executing call [.push .cmd] ∨ caller = .executing call []

/-- What is before the store of the command. -/
def Prepares (bar0 : Regs) : Caller → Prop
  | .out => True
  | .submitting call ops => call.cmd ≠ 0 ∧ (∀ v, .store .cmd v ∉ ops) ∧
      Loaded call ((ops ++ execute call).foldl reach bar0)
  | .executing call ops => call.cmd ≠ 0 ∧
      ∃ early, ops = early ++ [.store .cmd call.cmd, .push .cmd] ∧ (∀ v, .store .cmd v ∉ early) ∧
        Loaded call (ops.foldl reach bar0)
  | _ => False

/-- What is behind the completion. -/
inductive Concludes (connected : Bool) (caller : Caller) (lastResult : BitVec 64)
    (call : Call) : Prop
  | woken (h : caller = .woken call) (hresult : lastResult = answer connected call)
  | fetched (h : caller = .fetched call (answer connected call))
  | closing {ops : List Mmio} (h : caller = .closing call (.ok (answer connected call)) ops)
      (hops : ops <:+ pciWriteReg .control ctrlEnable)

/-- The events that the card has not begun to handle. -/
def unseen (s : Machine) : List Reg :=
  match s.card with
  | .poll => s.ring
  | _ => s.ring.tail

/-- The socket, with the backend and what the card waits for. -/
abbrev Link := List ToQemu × List ToCard × Backend × Bool

def link (s : Machine) : Link := (s.toQemu, s.toCard, s.backend, s.waitingForAck)

/-- Nothing is between the card and the backend. -/
def calm : Link := ([], [], .idle, false)

/-- The backend has taken a write, and the card has or will get to know it. -/
inductive Acking : Link → Prop
  | due : Acking ([], [], .acking, true)
  | sent : Acking ([], [.ack], .idle, true)
  | seen : Acking calm

/-- The card handles events that are not those of the command under way. -/
inductive Aside : Card → Link → Prop
  | poll : Aside .poll calm
  | popping : Aside .popping calm
  | await {l : Link} (h : Acking l) : Aside (.await []) l

/-- The card executes the command itself. -/
inductive Executes (connected : Bool) (bar0 : Regs) (call : Call) : Card → Prop
  | took (hloaded : Loaded call bar0) : Executes connected bar0 call (.took call.cmd)
  | localCmd (hlocal : ¬ Forwards connected call.cmd) (hloaded : Loaded call bar0) :
      Executes connected bar0 call .localCmd
  | localData (hlocal : ¬ Forwards connected call.cmd) (hloaded : Loaded call bar0) :
      Executes connected bar0 call (.localData call.cmd)
  | answering {stores : List (Reg × BitVec 32)} (hlocal : ¬ Forwards connected call.cmd)
      (hanswered : Answered connected call (settle bar0 stores))
      (hstatus : settle bar0 stores .status &&& (statusDone ||| statusError) ≠ 0) :
      Executes connected bar0 call (.answering stores)

/-- The backend has these registers from the card. -/
def Copied (regs bar0 : Regs) (done : List Reg) : Prop := ∀ r ∈ done, regs r = bar0 r

/-- The card leaves the command to the backend. -/
inductive Relays (regs bar0 : Regs) : Card → Link → Prop
  | reading {r : Reg} {done rest : List Reg} (hlist : forwarded = done ++ r :: rest)
      (hcopied : Copied regs bar0 done) : Relays regs bar0 (.forward r rest) calm
  | sending {r : Reg} {done rest : List Reg} (hlist : forwarded = done ++ r :: rest)
      (hcopied : Copied regs bar0 done) : Relays regs bar0 (.send r (bar0 r) rest) calm
  | sent {r : Reg} {done rest : List Reg} (hlist : forwarded = done ++ r :: rest)
      (hcopied : Copied regs bar0 done) :
      Relays regs bar0 (.await rest) ([.write r (bar0 r)], [], .idle, true)
  | taken {r : Reg} {done rest : List Reg} {l : Link} (hlist : forwarded = done ++ r :: rest)
      (hcopied : Copied regs bar0 done) (hacking : Acking l) :
      Relays regs bar0 (.await (r :: rest)) l
  | asked {addr : BitVec 64} {len : BitVec 32} (hcopied : Copied regs bar0 forwarded) :
      Relays regs bar0 (.await []) ([], [.dmaRead addr len], .dma, true)
  | fed {ok : Bool} (hcopied : Copied regs bar0 forwarded) :
      Relays regs bar0 (.await []) ([.response ok], [], .dma, true)
  | exited : Relays regs bar0 (.await []) ([], [], .exited, true)

/-- The backend has raised the interrupt. -/
inductive Raises : Link → Prop
  | due {status : BitVec 32} (h : status &&& (statusDone ||| statusError) ≠ 0) :
      Raises ([], [.raiseIrq status 0], .acking, true)
  | sent {status : BitVec 32} (h : status &&& (statusDone ||| statusError) ≠ 0) :
      Raises ([], [.raiseIrq status 0, .ack], .idle, true)

/-- The work hands the answer over. -/
inductive Works (connected : Bool) (bar0 : Regs) (lastResult : BitVec 64) (call : Call) :
    Work → Prop
  | readLo (hanswered : Answered connected call bar0) : Works connected bar0 lastResult call .readLo
  | readHi (hanswered : Answered connected call bar0) :
      Works connected bar0 lastResult call (.readHi (bar0 .resultLo))
  | writing {ops : List Mmio} (hops : ops <:+ pciWriteReg .cmd 0) (hcmd : bar0 .cmd = 0)
      (hresult : lastResult = answer connected call) :
      Works connected bar0 lastResult call (.writing ops)

/-- Where the command under way has come to. -/
def Flight (connected : Bool) (s : Machine) (call : Call) : Token → Prop
  | .ring => Loaded call s.bar0
  | .card => link s = calm ∧ Executes connected s.bar0 call s.card
  | .forward => Forwards connected call.cmd ∧ Loaded call s.bar0 ∧
      Relays s.regs s.bar0 s.card (link s)
  | .raised => Forwards connected call.cmd ∧ s.card = .await [] ∧ Raises (link s)
  | .storing => s.card = .await [] ∧ Acking (link s) ∧ s.waitingForAck = true ∧
      ∃ stores, s.qemuThread = .storing stores ∧ Answered connected call (settle s.bar0 stores) ∧
        settle s.bar0 stores .status &&& (statusDone ||| statusError) ≠ 0
  | .irq => Answered connected call s.bar0 ∧ s.bar0 .status &&& (statusDone ||| statusError) ≠ 0
  | .handler => Answered connected call s.bar0 ∧ ∃ ops, s.handler = .writing ops ∧
      (ops = pciWriteReg .status 0 ∨ ops <:+ [.push .status] ∧ s.bar0 .status = 0)
  | .queued => Answered connected call s.bar0 ∧ s.bar0 .status = 0
  | .work => Works connected s.bar0 s.lastResult call s.work ∧ s.bar0 .status = 0
  | .done => s.lastResult = answer connected call ∧ s.bar0 .cmd = 0 ∧ s.bar0 .status = 0
  | _ => True

/-- Where the caller and the command have come to. -/
def Turn (connected : Bool) (s : Machine) : Token → Prop
  | .before => s.bar0 .cmd = 0 ∧ Prepares s.bar0 s.caller
  | .after => s.bar0 .cmd = 0 ∧ s.bar0 .status = 0 ∧
      ∃ call, Concludes connected s.caller s.lastResult call
  | t => ∃ call, InFlight s.caller call ∧ call.cmd ≠ 0 ∧ Flight connected s call t

/-- The driver knows that a command is under way. -/
def pendingOf : Token → Caller → Bool
  | .before, .executing _ _ => true
  | .before, _ => false
  | .done, _ => false
  | .after, _ => false
  | _, _ => true

/-- The backend has processed the command, if it is one for the backend. -/
def Token.processed : Token → Bool
  | .before | .ring | .card | .forward => false
  | _ => true

/-- The thread of the events has to do with the command. -/
def Token.engages : Token → Bool
  | .card | .forward | .raised | .storing => true
  | _ => false

/-- The call under way. -/
def current : Caller → List Call
  | .out => []
  | .submitting call _ => [call]
  | .executing call _ => [call]
  | .woken call => [call]
  | .fetched call _ => [call]
  | .closing call _ _ => [call]

/-- What the backend has to do for the calls. -/
def jobsOf (connected : Bool) (calls : List Call) : List Job :=
  (calls.filter fun call ↦ Forwards connected call.cmd).map
    fun call ↦ ⟨call.cmd, call.src, call.len⟩

/-- The calls whose commands the backend has processed, or that were none for it. -/
def processed (s : Machine) (t : Token) : List Call :=
  s.returned.map Prod.fst ++ if t.processed then current s.caller else []

structure Holds (connected : Bool) (s : Machine) (t : Token) : Prop where
  irq : s.irq = decide (t = .irq)
  queued : s.queued = decide (t = .queued)
  completion : s.opCompletion = decide (t = .done)
  pending : s.operationPending = pendingOf t s.caller
  handler : decide (t = .handler) = false → s.handler = .idle
  work : decide (t = .work) = false → s.work = .idle
  qemuThread : decide (t = .storing) = false → s.qemuThread = .idle
  aside : t.engages = false → Aside s.card (link s)
  seen : t = .ring → .cmd ∈ unseen s ∨ ∃ call, s.caller = .executing call [.push .cmd]
  head : s.card ≠ .poll → s.ring ≠ []
  turn : Turn connected s t
  result : s.regs .resultHi ++ s.regs .resultLo = (0 : BitVec 64)
  jobs : s.jobs = jobsOf connected (processed s t)
  returned : ∀ r ∈ s.returned, r.2 = .ok (answer connected r.1)

def Inv (connected : Bool) (s : Machine) : Prop := ∃ t, Holds connected s t

end Invariant

section Turns

variable {connected : Bool} {s : Machine} {t : Token}

theorem holds_fresh (h : Fresh s) : Holds connected s .before where
  irq := h.irq
  queued := h.queued
  completion := h.opCompletion
  pending := by
    rw [h.operationPending, h.caller]
    rfl
  handler _ := h.handler
  work _ := h.work
  qemuThread _ := h.qemuThread
  aside _ := by
    unfold link
    rw [h.card, h.toQemu, h.toCard, h.backend, h.waitingForAck]
    exact .poll
  seen ht := by cases ht
  head hcard := absurd h.card hcard
  turn := by
    refine ⟨h.cmd, ?_⟩
    rw [h.caller]
    trivial
  result := by
    rw [h.resultHi, h.resultLo]
    rfl
  jobs := by
    unfold processed
    rw [h.returned, h.jobs]
    rfl
  returned := by
    rw [h.returned]
    intro r hr
    cases hr

/-- The command is under way unless the caller is before its store or behind its completion. -/
theorem Holds.flight (h : Holds connected s t) (hbefore : t ≠ .before) (hafter : t ≠ .after) :
    ∃ call, InFlight s.caller call ∧ call.cmd ≠ 0 ∧ Flight connected s call t := by
  have hturn := h.turn
  cases t
  case before => exact absurd rfl hbefore
  case after => exact absurd rfl hafter
  all_goals exact hturn

theorem InFlight.current {caller : Caller} {call : Call} (h : InFlight caller call) :
    current caller = [call] := by
  rcases h with h | h
  all_goals
    rw [h]
    rfl

theorem InFlight.unique {caller : Caller} {call call' : Call} (h : InFlight caller call)
    (h' : InFlight caller call') : call' = call := by
  have hcurrent := h.current.symm.trans h'.current
  rw [List.cons.injEq] at hcurrent
  exact hcurrent.1.symm

theorem Holds.handler_of (h : Holds connected s t) {ops : List Mmio}
    (hhandler : s.handler = .writing ops) : t = .handler := by
  by_contra ht
  rw [h.handler (decide_eq_false ht)] at hhandler
  cases hhandler

theorem Holds.work_of (h : Holds connected s t) (hwork : s.work ≠ .idle) : t = .work := by
  by_contra ht
  exact hwork (h.work (decide_eq_false ht))

theorem Holds.qemuThread_of (h : Holds connected s t) {stores : List (Reg × BitVec 32)}
    (hthread : s.qemuThread = .storing stores) : t = .storing := by
  by_contra ht
  rw [h.qemuThread (decide_eq_false ht)] at hthread
  cases hthread

theorem Holds.irq_of (h : Holds connected s t) (hirq : s.irq = true) : t = .irq :=
  of_decide_eq_true (h.irq.symm.trans hirq)

theorem Holds.queued_of (h : Holds connected s t) (hqueued : s.queued = true) : t = .queued :=
  of_decide_eq_true (h.queued.symm.trans hqueued)

theorem Holds.done_of (h : Holds connected s t) (hdone : s.opCompletion = true) : t = .done :=
  of_decide_eq_true (h.completion.symm.trans hdone)

/-- Unless the caller is executing, it is before the store or behind the completion. -/
theorem Holds.apart (h : Holds connected s t)
    (hcaller : ∀ call ops, s.caller ≠ .executing call ops) : t = .before ∨ t = .after := by
  by_contra ht
  rw [not_or] at ht
  obtain ⟨call, hcall | hcall, -⟩ := h.flight ht.1 ht.2
  all_goals exact hcaller _ _ hcall

theorem suffix_cases {r : Reg} {v : BitVec 32} {op : Mmio} {ops : List Mmio}
    (h : op :: ops <:+ pciWriteReg r v) :
    op = .store r v ∧ ops = [.push r] ∨ op = .push r ∧ ops = [] := by
  unfold pciWriteReg at h
  rcases List.suffix_cons_iff.mp h with h | h
  · cases h
    exact .inl ⟨rfl, rfl⟩
  · rcases List.suffix_cons_iff.mp h with h | h
    · cases h
      exact .inr ⟨rfl, rfl⟩
    · cases List.suffix_nil.mp h

theorem suffix_tail {r : Reg} {v : BitVec 32} {op : Mmio} {ops : List Mmio}
    (h : op :: ops <:+ pciWriteReg r v) : ops <:+ pciWriteReg r v :=
  (List.suffix_cons op ops).trans h

theorem reach_of_suffix {regs : Regs} {r q : Reg} {v : BitVec 32} {op : Mmio} {ops : List Mmio}
    (h : op :: ops <:+ pciWriteReg r v) (hq : q ≠ r) : reach regs op q = regs q := by
  rcases suffix_cases h with ⟨rfl, -⟩ | ⟨rfl, -⟩
  · exact Function.update_of_ne hq ..
  · rfl

theorem head_append (h : Holds connected s t) (ring : List Reg) (hcard : s.card ≠ .poll) :
    s.ring ++ ring ≠ [] :=
  List.append_ne_nil_of_left_ne_nil (h.head hcard) ring

theorem of_link {toQemu : List ToQemu} {toCard : List ToCard} {backend : Backend} {waiting : Bool}
    (h : link s = (toQemu, toCard, backend, waiting)) :
    s.toQemu = toQemu ∧ s.toCard = toCard ∧ s.backend = backend ∧ s.waitingForAck = waiting := by
  unfold link at h
  simpa only [Prod.mk.injEq] using h

theorem Aside.acking {card : Card} {l : Link} (h : Aside card l) : Acking l := by
  cases h with
  | poll | popping => exact .seen
  | await h => exact h

theorem Acking.cases_of {l : Link} (h : Acking l) :
    l = ([], [], .acking, true) ∨ l = ([], [.ack], .idle, true) ∨ l = ([], [], .idle, false) := by
  cases h
  exacts [.inl rfl, .inr (.inl rfl), .inr (.inr rfl)]

/-- The backend has not taken a message for one of another kind. -/
theorem Holds.not_lost {t : Token} (h : Holds connected s t) : s.backend ≠ .lost := by
  have hne {l : Link} (hl : link s = l) (hbackend : l.2.2.1 ≠ .lost) : s.backend ≠ .lost := by
    rw [← hl] at hbackend
    exact hbackend
  have hacking (hacking : Acking (link s)) : s.backend ≠ .lost := by
    obtain hl | hl | hl := hacking.cases_of
    all_goals exact hne hl Backend.noConfusion
  have hturn := h.turn
  cases t
  case card =>
    obtain ⟨call, -, -, hcalm, -⟩ := hturn
    exact hne hcalm Backend.noConfusion
  case forward =>
    obtain ⟨call, -, -, -, -, hrelays⟩ := hturn
    generalize s.card = card at hrelays
    generalize hl : link s = l at hrelays
    cases hrelays with
    | taken hlist hcopied hacking' => exact hacking (hl ▸ hacking')
    | reading | sending | sent | asked | fed | exited => exact hne hl Backend.noConfusion
  case raised =>
    obtain ⟨call, -, -, -, -, hraises⟩ := hturn
    generalize hl : link s = l at hraises
    cases hraises
    all_goals exact hne hl Backend.noConfusion
  case storing =>
    obtain ⟨call, -, -, -, hacking', -⟩ := hturn
    exact hacking hacking'
  all_goals exact hacking (h.aside rfl).acking

theorem jobsOf_append_of_not (calls : List Call) {call : Call}
    (h : ¬ Forwards connected call.cmd) :
    jobsOf connected (calls ++ [call]) = jobsOf connected calls := by
  unfold jobsOf
  rw [List.filter_append, List.filter_cons_of_neg (by simpa using h), List.filter_nil,
    List.append_nil]

theorem jobsOf_append (calls : List Call) {call : Call} (h : Forwards connected call.cmd) :
    jobsOf connected (calls ++ [call]) =
      jobsOf connected calls ++ [⟨call.cmd, call.src, call.len⟩] := by
  unfold jobsOf
  rw [List.filter_append, List.filter_cons_of_pos (by simpa using h), List.filter_nil,
    List.map_append]
  rfl

theorem processed_of_not {t : Token} (ht : t.processed = false) :
    processed s t = s.returned.map Prod.fst := by
  unfold processed
  rw [ht, if_neg Bool.noConfusion, List.append_nil]

theorem processed_of_flight {t : Token} {call : Call} (ht : t.processed = true)
    (hflight : InFlight s.caller call) : processed s t = s.returned.map Prod.fst ++ [call] := by
  unfold processed
  rw [if_pos ht, hflight.current]

end Turns

end Pciem.Protopciem.Invariant
