import Pciem.Protopciem.Device

namespace Pciem.Protopciem.Turns

open Library.TransitionSystem Protopciem.Device

/-- The threads and handlers that go on by themselves. -/
inductive Party
  | caller | handler | work | card | qemuThread | backend

section Turn

variable (connected : Bool) (s : Machine)

/-- The calling thread goes on with a call, but makes none. -/
def callerTurn : Machine :=
  match s.caller with
  | .out => s
  | .submitting call (op :: ops) => { s.mmio op with caller := .submitting call ops }
  | .submitting call [] =>
    if s.operationPending then
      { s with caller := .out, returned := s.returned ++ [(call, .error .ebusy)] }
    else
      { s with
        caller := .executing call (execute call)
        operationPending := true
        opCompletion := false }
  | .executing call (op :: ops) => { s.mmio op with caller := .executing call ops }
  | .executing call [] =>
    if s.opCompletion then { s with caller := .woken call, opCompletion := false } else s
  | .woken call => { s with caller := .fetched call s.lastResult }
  | .fetched call result =>
    { s with
      caller := .closing call
        (if s.bar0 .status &&& statusError ≠ 0 then .error .eio else .ok result)
        (pciWriteReg .control ctrlEnable) }
  | .closing call outcome (op :: ops) => { s.mmio op with caller := .closing call outcome ops }
  | .closing call outcome [] =>
    { s with caller := .out, returned := s.returned ++ [(call, outcome)] }

def handlerTurn : Machine :=
  match s.handler with
  | .idle =>
    if s.irq then
      { s with
        irq := false
        handler := if s.bar0 .status &&& (statusDone ||| statusError) = 0 then .idle
          else .writing (pciWriteReg .status 0) }
    else s
  | .writing (op :: ops) => { s.mmio op with handler := .writing ops }
  | .writing [] => { s with handler := .idle, queued := true }

def workTurn : Machine :=
  match s.work with
  | .idle =>
    if s.queued then
      { s with queued := false, work := if s.operationPending then .readLo else .idle }
    else s
  | .readLo => { s with work := .readHi (s.bar0 .resultLo) }
  | .readHi lo =>
    { s with lastResult := s.bar0 .resultHi ++ lo, work := .writing (pciWriteReg .cmd 0) }
  | .writing (op :: ops) => { s.mmio op with work := .writing ops }
  | .writing [] => { s with work := .idle, operationPending := false, opCompletion := true }

def cardTurn : Machine :=
  match s.card with
  | .poll =>
    match s.ring with
    | [] => s
    | r :: _ =>
      if r = .cmd then
        { s with card := if s.bar0 .cmd = 0 then .popping else .took (s.bar0 .cmd) }
      else { s with card := .popping }
  | .took cmd =>
    { s.store .status statusBusy with
      card := if Forwards connected cmd then .forward .control forwarded.tail else .localCmd }
  | .localCmd => { s with card := .localData (s.bar0 .cmd) }
  | .localData cmd =>
    { s with
      card := .answering (localStores (processCommandLocal cmd (s.bar0 .data)).1
        (processCommandLocal cmd (s.bar0 .data)).2) }
  | .answering ((r, v) :: stores) => { s.store r v with card := .answering stores }
  | .answering [] => { s with card := .popping, irq := true }
  | .forward r rest => { s with card := .send r (s.bar0 r) rest }
  | .send r v rest =>
    { s with card := .await rest, toQemu := s.toQemu ++ [.write r v], waitingForAck := true }
  | .await rest =>
    if s.waitingForAck then s
    else
      match rest with
      | [] => { s with card := .popping }
      | r :: rest => { s with card := .forward r rest }
  | .popping => { s with card := .poll, ring := s.ring.tail }

/-- A DMA succeeds here. -/
def qemuThreadTurn : Machine :=
  match s.qemuThread with
  | .idle =>
    match s.toCard with
    | [] => s
    | .ack :: toCard => { s with toCard, waitingForAck := false }
    | .dmaRead _ _ :: toCard => { s with toCard, toQemu := s.toQemu ++ [.response true] }
    | .raiseIrq status result :: toCard =>
      { s with toCard, qemuThread := .storing (qemuStores status result) }
  | .storing ((r, v) :: stores) => { s.store r v with qemuThread := .storing stores }
  | .storing [] => { s with qemuThread := .idle, irq := true }

/-- The backend does not crash on what it reads. -/
def backendTurn : Machine :=
  match s.backend with
  | .idle =>
    match s.toQemu with
    | [] => s
    | .response _ :: toQemu => { s with toQemu, backend := .lost }
    | .write r v :: toQemu =>
      if r = .cmd then
        match dmaLength (backendWrite s.regs .cmd v) with
        | none => { s with toQemu, backend := .exited }
        | some len =>
          { s with
            toQemu
            regs := backendWrite s.regs .cmd v
            toCard := s.toCard ++ [.dmaRead (srcAddr s.regs) len]
            backend := .dma }
      else { s with toQemu, regs := backendWrite s.regs r v, backend := .acking }
  | .acking => { s with toCard := s.toCard ++ [.ack], backend := .idle }
  | .dma =>
    match s.toQemu with
    | [] => s
    | .response _ :: toQemu =>
      { s with
        toQemu
        regs := backendComplete s.regs
        jobs := s.jobs ++ [jobOf s.regs]
        toCard := s.toCard ++ [.raiseIrq (backendComplete s.regs .status)
          (s.regs .resultHi ++ s.regs .resultLo)]
        backend := .acking }
    | .write _ _ :: toQemu => { s with toQemu, backend := .lost }
  | .exited | .lost => s

def turn : Party → Machine
  | .caller => callerTurn s
  | .handler => handlerTurn s
  | .work => workTurn s
  | .card => cardTurn connected s
  | .qemuThread => qemuThreadTurn s
  | .backend => backendTurn s

end Turn

section Steps

variable {connected : Bool} (s : Machine)

/-- The state is the same, or one step further. -/
def Goes (connected : Bool) (s s' : Machine) : Prop := s' = s ∨ Step connected s s'

theorem goes_caller : Goes connected s (callerTurn s) := by
  unfold callerTurn
  split
  · exact .inl rfl
  · exact .inr (.submit ‹_›)
  · by_cases hpending : s.operationPending = true
    · rw [if_pos hpending]
      exact .inr (.busy ‹_› hpending)
    · rw [if_neg hpending]
      exact .inr (.enter ‹_› (Bool.eq_false_iff.mpr hpending))
  · exact .inr (.execute ‹_›)
  · by_cases hdone : s.opCompletion = true
    · rw [if_pos hdone]
      exact .inr (.wake ‹_› hdone)
    · rw [if_neg hdone]
      exact .inl rfl
  · exact .inr (.fetch ‹_›)
  · exact .inr (.check ‹_›)
  · exact .inr (.close ‹_›)
  · exact .inr (.leave ‹_›)

theorem goes_handler : Goes connected s (handlerTurn s) := by
  unfold handlerTurn
  split
  · by_cases hirq : s.irq = true
    · rw [if_pos hirq]
      exact .inr (.interrupt ‹_› hirq)
    · rw [if_neg hirq]
      exact .inl rfl
  · exact .inr (.handle ‹_›)
  · exact .inr (.queueWork ‹_›)

theorem goes_work : Goes connected s (workTurn s) := by
  unfold workTurn
  split
  · by_cases hqueued : s.queued = true
    · rw [if_pos hqueued]
      exact .inr (.startWork ‹_› hqueued)
    · rw [if_neg hqueued]
      exact .inl rfl
  · exact .inr (.readLo ‹_›)
  · exact .inr (.readHi ‹_›)
  · exact .inr (.work ‹_›)
  · exact .inr (.complete ‹_›)

theorem goes_card : Goes connected s (cardTurn connected s) := by
  unfold cardTurn
  split
  · split
    · exact .inl rfl
    · rename_i r _ _
      by_cases hr : r = .cmd
      · rw [if_pos hr]
        subst hr
        exact .inr (.test ‹_› ‹_›)
      · rw [if_neg hr]
        exact .inr (.drop ‹_› ‹_› hr)
  · exact .inr (.busyStatus ‹_›)
  · exact .inr (.localCmd ‹_›)
  · exact .inr (.localData ‹_›)
  · exact .inr (.answer ‹_›)
  · exact .inr (.inject ‹_›)
  · exact .inr (.read ‹_›)
  · exact .inr (.send ‹_›)
  · by_cases hack : s.waitingForAck = true
    · rw [if_pos hack]
      exact .inl rfl
    · rw [if_neg hack]
      split
      · exact .inr (.last ‹_› (Bool.eq_false_iff.mpr hack))
      · exact .inr (.next ‹_› (Bool.eq_false_iff.mpr hack))
  · exact .inr (.pop ‹_›)

theorem goes_qemuThread : Goes connected s (qemuThreadTurn s) := by
  unfold qemuThreadTurn
  split
  · split
    · exact .inl rfl
    · exact .inr (.ack ‹_› ‹_›)
    · exact .inr (.respond true ‹_› ‹_›)
    · exact .inr (.raise ‹_› ‹_›)
  · exact .inr (.storeAnswer ‹_›)
  · exact .inr (.injectAnswer ‹_›)

theorem goes_backend : Goes connected s (backendTurn s) := by
  unfold backendTurn
  split
  · split
    · exact .inl rfl
    · exact .inr (.misread ‹_› ‹_›)
    · rename_i r _ _ _
      by_cases hr : r = .cmd
      · rw [if_pos hr]
        subst hr
        split
        · exact .inr (.refuse ‹_› ‹_› ‹_›)
        · exact .inr (.command ‹_› ‹_› ‹_›)
      · rw [if_neg hr]
        exact .inr (.register ‹_› ‹_› hr)
  · exact .inr (.acknowledge ‹_›)
  · split
    · exact .inl rfl
    · exact .inr (.process ‹_› ‹_›)
    · exact .inr (.misreadDma ‹_› ‹_›)
  · exact .inl rfl
  · exact .inl rfl

theorem goes_turn (p : Party) : Goes connected s (turn connected s p) := by
  cases p with
  | caller => exact goes_caller s
  | handler => exact goes_handler s
  | work => exact goes_work s
  | card => exact goes_card s
  | qemuThread => exact goes_qemuThread s
  | backend => exact goes_backend s

end Steps

/-- So many rounds, in each of which every party has its turn. -/
def rounds (connected : Bool) (s : Machine) : Nat → Machine
  | 0 => s
  | n + 1 => rounds connected ([Party.caller, .handler, .work, .card, .qemuThread, .backend].foldl
      (turn connected) s) n

theorem reachable_turns {connected : Bool} (parties : List Party) {s : Machine}
    (h : (protopciem connected).Reachable s) :
    (protopciem connected).Reachable (parties.foldl (turn connected) s) := by
  induction parties generalizing s with
  | nil => exact h
  | cons p parties ih =>
    refine ih ?_
    have hgoes : Goes connected s (turn connected s p) := goes_turn s p
    obtain heq | hstep := hgoes
    · rw [heq]
      exact h
    · exact h.step hstep

theorem reachable_rounds {connected : Bool} {s : Machine}
    (h : (protopciem connected).Reachable s) (n : Nat) :
    (protopciem connected).Reachable (rounds connected s n) := by
  induction n generalizing s with
  | zero => exact h
  | succ n ih => exact ih (reachable_turns _ h)

end Pciem.Protopciem.Turns
