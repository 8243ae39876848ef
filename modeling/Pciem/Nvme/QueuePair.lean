import Pciem.Library.TransitionSystem
import Pciem.Nvme.Rings

namespace Pciem.Nvme.QueuePair

open Kernel Library.ByteMemory Library.BoundedChannel Library.TaggedRing Library.TransitionSystem
  Dma.Paged Dma.Local Ring.SharedRing Card Doorbell Rings

/-- A doorbell that the driver rings: of the submissions, with how many commands it has submitted
then, or of the completions, with how many it has taken. -/
structure Bell where
  queue : Fin maxQueues
  isCq : Bool
  count : ℕ

def bellOffset (queue : Fin maxQueues) (isCq : Bool) : UInt64 :=
  0x1000 + UInt64.ofNat queue.val * 8 + if isCq then 4 else 0

/-- The event of a doorbell of a queue. -/
def Bell.event (q : NvmeQueue) (bell : Bell) : PciemEvent :=
  { (default : PciemEvent) with
    type := pciemEventMmioWrite
    offset := bellOffset bell.queue bell.isCq
    size := 4
    data := UInt64.ofNat (bell.count % if bell.isCq then cqEntries q else q.sqSize.toNat) }

/-- What the driver and the card have done with a queue, from its creation on. -/
structure Pair where
  submitted : List NvmeCommand
  told : ℕ
  taken : List NvmeCompletion
  rung : ℕ
  read : List NvmeCommand
  done : List (NvmeCommand × BitVec 32)
  posted : List NvmeCompletion

/-- Where the card is in its loop. -/
inductive Pc
  | idle
  | turn (bell : Bell)
  | read (bell : Bell) (cmd : NvmeCommand)
  | executed (bell : Bell) (cmd : NvmeCommand) (status result : BitVec 32)

structure Machine where
  dev : NvmeDevice
  pc : Pc
  ring : List Bell
  pairs : Fin maxQueues → Pair

def Machine.setPair (s : Machine) (i : Fin maxQueues) (pair : Pair) : Machine :=
  { s with pairs := Function.update s.pairs i pair }

@[simp] theorem setPair_self (s : Machine) (i : Fin maxQueues) (pair : Pair) :
    (s.setPair i pair).pairs i = pair :=
  Function.update_self ..

theorem setPair_other (s : Machine) {i j : Fin maxQueues} (h : j ≠ i) (pair : Pair) :
    (s.setPair i pair).pairs j = s.pairs j :=
  Function.update_of_ne h ..

/-- How many commands of a queue the driver may have under way: fewer than there are entries for
them, and no more than there are entries for their completions. -/
def depth (q : NvmeQueue) : ℕ := min (q.sqSize.toNat - 1) (cqEntries q)

section Steps

variable (p : Platform) (io : Fin maxQueues → Prop) (qs : Fin maxQueues → NvmeQueue)

/-- A memory has the completions and the commands that are still to be read as the other has. -/
structure Spares (q : NvmeQueue) (pair : Pair) (guest guest' : Memory) : Prop where
  cq : ∀ j < cqEntries q, ∀ k < 16, guest' (cqCell p q j k) = guest (cqCell p q j k)
  sq : ∀ j, pair.read.length ≤ j → j < pair.submitted.length → ∀ k < 64,
    guest' (sqCell p q (j % q.sqSize.toNat) k) = guest (sqCell p q (j % q.sqSize.toNat) k)

/-- A memory has the rings of a queue as the other has. -/
structure Keeps (q : NvmeQueue) (guest guest' : Memory) : Prop where
  cq : ∀ j < cqEntries q, ∀ k < 16, guest' (cqCell p q j k) = guest (cqCell p q j k)
  sq : ∀ j < q.sqSize.toNat, ∀ k < 64, guest' (sqCell p q j k) = guest (sqCell p q j k)

variable {p} in
theorem Keeps.spares {q : NvmeQueue} {pair : Pair} {guest guest' : Memory}
    (h : Keeps p q guest guest') (hpos : 0 < q.sqSize.toNat) : Spares p q pair guest guest' where
  cq := h.cq
  sq j _ _ := h.sq _ (Nat.mod_lt j hpos)

variable (env : Env)

/-- The command's buffers are apart from the rings. -/
def Apart (cmd : NvmeCommand) : Prop :=
  ∀ fuel dev status dev', nvmeExecuteIoCommand env fuel dev cmd = some (status, dev') →
    ∀ i, io i → Keeps p (qs i) dev.guest dev'.guest

/-- The driver's processors store to memory, submit commands, ring doorbells and take completions,
and the card handles the doorbells; a doorbell for which there is no room in the ring is as one
that has not been rung. -/
inductive Step : Machine → Machine → Prop
  | store {s : Machine} (guest : Memory)
      (h : ∀ i, io i → Spares p (qs i) (s.pairs i) s.dev.guest guest) :
      Step s { s with dev := { s.dev with guest } }
  | submit {s : Machine} {i : Fin maxQueues} {cmd : NvmeCommand} (hi : io i)
      (hroom : (s.pairs i).submitted.length < (s.pairs i).taken.length + depth (qs i))
      (hcmd : cmd = sqEntry p (qs i) s.dev.guest
        ((s.pairs i).submitted.length % (qs i).sqSize.toNat))
      (hapart : Apart p io qs env cmd) :
      Step s (s.setPair i { s.pairs i with submitted := (s.pairs i).submitted ++ [cmd] })
  | ring {s : Machine} {i : Fin maxQueues} (hi : io i) :
      Step s (Machine.setPair
        { s with ring := s.ring ++ [⟨i, false, (s.pairs i).submitted.length⟩] } i
        { s.pairs i with told := (s.pairs i).submitted.length })
  | ringCq {s : Machine} {i : Fin maxQueues} (hi : io i) :
      Step s { s with ring := s.ring ++ [⟨i, true, (s.pairs i).taken.length⟩] }
  | take {s : Machine} {i : Fin maxQueues} {cpl : NvmeCompletion} (hi : io i)
      (hcpl : cpl = cqEntry p (qs i) s.dev.guest
        ((s.pairs i).taken.length % cqEntries (qs i)))
      (htag : phaseTag cpl = tag (cqEntries (qs i)) (s.pairs i).taken.length) :
      Step s (s.setPair i { s.pairs i with taken := (s.pairs i).taken ++ [cpl] })
  | ack {s : Machine} {i : Fin maxQueues} {bell : Bell} {ring : List Bell} (hpc : s.pc = .idle)
      (hring : s.ring = bell :: ring)
      (hqueue : nvmeGetQueue (doorbellQueue (bell.event (qs bell.queue))) = some i)
      (hcq : IsCq (bell.event (qs bell.queue))) :
      Step s { s with
        dev := echo (s.dev.setQueue i ((s.dev.queues i).acked (bell.event (qs bell.queue))))
          nvmeRegCq0Hdbl (bell.event (qs bell.queue))
        ring }
  | start {s : Machine} {i : Fin maxQueues} {bell : Bell} {ring : List Bell} (hpc : s.pc = .idle)
      (hring : s.ring = bell :: ring)
      (hqueue : nvmeGetQueue (doorbellQueue (bell.event (qs bell.queue))) = some i)
      (hcq : ¬ IsCq (bell.event (qs bell.queue))) :
      Step s ({ s with
        dev := s.dev.setQueue i ((s.dev.queues i).rung (bell.event (qs bell.queue)))
        pc := .turn bell
        ring }.setPair i { s.pairs i with rung := bell.count })
  | fetch {s : Machine} {bell : Bell} {cmd : NvmeCommand} (hpc : s.pc = .turn bell)
      (hne : (s.dev.queues bell.queue).sqHead ≠ (s.dev.queues bell.queue).sqTail)
      (hread : nvmeReadSqEntry env s.dev (s.dev.queues bell.queue) = (.ok (), cmd)) :
      Step s ({ s with
        dev := s.dev.setQueue bell.queue (s.dev.queues bell.queue).popped
        pc := .read bell cmd }.setPair bell.queue
          { s.pairs bell.queue with read := (s.pairs bell.queue).read ++ [cmd] })
  | execute {s : Machine} {bell : Bell} {cmd : NvmeCommand} {fuel : ℕ}
      {status result : BitVec 32} {dev : NvmeDevice} (hpc : s.pc = .read bell cmd)
      (h : dispatch env fuel s.dev cmd bell.queue = some (status, result, dev)) :
      Step s ({ s with dev, pc := .executed bell cmd status result }.setPair bell.queue
        { s.pairs bell.queue with done := (s.pairs bell.queue).done ++ [(cmd, status)] })
  | post {s : Machine} {bell : Bell} {cmd : NvmeCommand} {status result : BitVec 32}
      (hpc : s.pc = .executed bell cmd status result) :
      Step s ({ s with
        dev := post env s.dev cmd bell.queue status result
        pc := .turn bell }.setPair bell.queue { s.pairs bell.queue with
          posted := (s.pairs bell.queue).posted ++
            [completion (s.dev.queues bell.queue) cmd status result] })
  | finish {s : Machine} {bell : Bell} (hpc : s.pc = .turn bell)
      (heq : (s.dev.queues bell.queue).sqHead = (s.dev.queues bell.queue).sqTail) :
      Step s { s with
        dev := echo s.dev nvmeRegSq0Tdbl (bell.event (qs bell.queue))
        pc := .idle }

/-- A queue that has just been created, with a ring of completions that is cleared. -/
structure Fresh (q : NvmeQueue) (guest : Memory) : Prop where
  sqHead : q.sqHead = 0
  sqTail : q.sqTail = 0
  cqTail : q.cqTail = 0
  cqPhase : q.cqPhase = 1
  clear : ∀ j < cqEntries q, phaseTag (cqEntry p q guest j) = false

def queuePairs : System Machine where
  init s := s.dev.queues = qs ∧ (∀ i, io i → Fresh p (qs i) s.dev.guest) ∧ s.pc = .idle ∧
    s.ring = [] ∧ ∀ i, s.pairs i = ⟨[], 0, [], 0, [], [], []⟩
  next := Step p io qs env

/-- The queues that the driver uses: the framework serves the card, the rings are where the card
can reach them, and those of the completions are apart from all the others. -/
structure Setup : Prop where
  serving : Serving env p
  id : ∀ i, io i → (qs i).id ≠ 0
  laid : ∀ i, io i → Laid p (qs i)
  apart : ∀ i, io i → ∀ j, io j → i ≠ j → ∀ a < cqEntries (qs i), ∀ k < 16,
    (∀ b < cqEntries (qs j), ∀ l < 16, cqCell p (qs i) a k ≠ cqCell p (qs j) b l) ∧
      ∀ b < (qs j).sqSize.toNat, ∀ l < 64, cqCell p (qs i) a k ≠ sqCell p (qs j) b l

end Steps

/-- The completion of the command at position `j` of the submitted ones. -/
def completionFor (q : NvmeQueue) (j : ℕ) (cmd : NvmeCommand) (status : BitVec 32) :
    NvmeCompletion where
  result := 0
  sqHead := BitVec.ofNat 16 ((j + 1) % q.sqSize.toNat)
  sqId := q.id
  commandId := cmd.commandId
  status := (status ||| if tag (cqEntries q) j then 1 else 0).setWidth 16

def answersTo (q : NvmeQueue) (done : List (NvmeCommand × BitVec 32)) : List NvmeCompletion :=
  done.mapIdx fun j d ↦ completionFor q j d.1 d.2

def phaseOf (b : Bool) : BitVec 8 := if b then 1 else 0

/-- What stays of a queue from its creation on. -/
structure Same (q q' : NvmeQueue) : Prop where
  sqSize : q'.sqSize = q.sqSize
  cqSize : q'.cqSize = q.cqSize
  sqAddr : q'.sqAddr = q.sqAddr
  cqAddr : q'.cqAddr = q.cqAddr
  id : q'.id = q.id

section Same

variable {p : Platform} {q q' : NvmeQueue}

theorem Same.entries (h : Same q q') : cqEntries q' = cqEntries q := by
  unfold cqEntries
  rw [h.cqSize]

theorem Same.sqCell (h : Same q q') (i k : ℕ) : Rings.sqCell p q' i k = Rings.sqCell p q i k := by
  unfold Rings.sqCell sqIova
  rw [h.sqAddr]

theorem Same.cqCell (h : Same q q') (i k : ℕ) : Rings.cqCell p q' i k = Rings.cqCell p q i k := by
  unfold Rings.cqCell cqIova
  rw [h.cqAddr]

theorem Same.laid (h : Same q q') (hlaid : Laid p q) : Laid p q' where
  sqSize := h.sqSize ▸ hlaid.sqSize
  sq i hi := by
    unfold sqIova
    rw [h.sqAddr]
    exact hlaid.sq i (h.sqSize ▸ hi)
  cq i hi := by
    unfold cqIova
    rw [h.cqAddr]
    exact hlaid.cq i (h.entries ▸ hi)
  distinct := by
    simp only [h.entries, h.cqCell]
    exact hlaid.distinct
  apart := by
    simp only [h.entries, h.cqCell, h.sqSize, h.sqCell]
    exact hlaid.apart

theorem Same.sqEntry (h : Same q q') (mem : Memory) (i : ℕ) :
    Rings.sqEntry p q' mem i = Rings.sqEntry p q mem i := by
  unfold Rings.sqEntry
  simp only [h.sqCell]

theorem Same.written (h : Same q q') (mem : Memory) (i : ℕ) (cpl : NvmeCompletion) :
    Rings.written p q' mem i cpl = Rings.written p q mem i cpl := by
  unfold Rings.written
  simp only [h.cqCell]

theorem same_popped (q : NvmeQueue) : Same q q.popped := ⟨rfl, rfl, rfl, rfl, rfl⟩

theorem same_pushed (q : NvmeQueue) : Same q q.pushed := by
  obtain ⟨_, _, h⟩ := pushed_eq q
  rw [h]
  exact ⟨rfl, rfl, rfl, rfl, rfl⟩

theorem Same.trans {q'' : NvmeQueue} (h : Same q q') (h' : Same q' q'') : Same q q'' :=
  ⟨h'.sqSize.trans h.sqSize, h'.cqSize.trans h.cqSize, h'.sqAddr.trans h.sqAddr,
    h'.cqAddr.trans h.cqAddr, h'.id.trans h.id⟩

end Same

theorem pushed_cursor {q : NvmeQueue} {c : ℕ} (htail : q.cqTail.toNat = c % cqEntries q)
    (hphase : q.cqPhase = phaseOf (tag (cqEntries q) c)) :
    q.pushed.cqTail.toNat = (c + 1) % cqEntries q ∧
      q.pushed.cqPhase = phaseOf (tag (cqEntries q) (c + 1)) := by
  have hpos := cqEntries_pos (q := q)
  have hnext := next_cursorAt hpos c
  have hlt := Nat.mod_lt c hpos
  have hsize := q.cqSize.isLt
  have hlast : q.cqTail + 1 = q.cqSize ↔ c % cqEntries q + 1 = cqEntries q := by
    rw [← htail, ← BitVec.toNat_inj, BitVec.toNat_add]
    rw [← htail] at hlt
    unfold cqEntries at hlt ⊢
    split at hlt
    · rename_i hzero
      rw [hzero, if_pos rfl]
      change (q.cqTail.toNat + 1) % 2 ^ 16 = 0 ↔ _
      omega
    · rename_i hne
      rw [if_neg hne]
      change (q.cqTail.toNat + 1) % 2 ^ 16 = _ ↔ _
      omega
  unfold Cursor.next cursorAt at hnext
  dsimp only at hnext
  unfold NvmeQueue.pushed
  by_cases h : q.cqTail + 1 = q.cqSize
  · rw [if_pos (hlast.mp h), Cursor.mk.injEq] at hnext
    rw [if_pos h, ← hnext.1, ← hnext.2, hphase]
    refine ⟨rfl, ?_⟩
    cases tag (cqEntries q) c with
    | true => rfl
    | false => rfl
  · rw [if_neg fun hc ↦ h (hlast.mpr hc), Cursor.mk.injEq] at hnext
    rw [if_neg h, ← hnext.1, ← hnext.2, ← htail]
    refine ⟨?_, hphase⟩
    have hne : c % cqEntries q + 1 ≠ cqEntries q := fun hc ↦ h (hlast.mpr hc)
    have hentries : cqEntries q ≤ 2 ^ 16 := by
      unfold cqEntries
      split
      · exact le_refl _
      · omega
    change (q.cqTail.toNat + 1) % 2 ^ 16 = _
    rw [Nat.mod_eq_of_lt (by omega)]

section Bells

theorem bellOffset_queue : ∀ i : Fin maxQueues, ∀ isCq : Bool, nvmeGetQueue
    ((((bellOffset i isCq).toBitVec - nvmeRegSq0Tdbl) / 8).setWidth 16) = some i := by
  decide

theorem bellOffset_isCq : ∀ i : Fin maxQueues, ∀ isCq : Bool,
    ((bellOffset i isCq).toBitVec - nvmeRegSq0Tdbl) % 8 ≥ 4 ↔ isCq = true := by
  decide

theorem bellOffset_ge : ∀ i : Fin maxQueues, ∀ isCq : Bool,
    nvmeRegSq0Tdbl ≤ (bellOffset i isCq).toBitVec := by
  decide

variable (q : NvmeQueue) (bell : Bell)

theorem event_queue : nvmeGetQueue (doorbellQueue (bell.event q)) = some bell.queue :=
  bellOffset_queue bell.queue bell.isCq

theorem event_isCq : IsCq (bell.event q) ↔ bell.isCq = true :=
  bellOffset_isCq bell.queue bell.isCq

theorem masked_event (hpos : 0 < q.sqSize.toNat) :
    (bell.event q).data &&& size2mask (bell.event q).size.toUInt64 = (bell.event q).data := by
  have hmod : (bell.count % if bell.isCq then cqEntries q else q.sqSize.toNat) < 2 ^ 32 := by
    have hentries : cqEntries q ≤ 2 ^ 16 := by
      have hsize := q.cqSize.isLt
      unfold cqEntries
      split
      · exact le_refl _
      · omega
    have hsize := q.sqSize.isLt
    split
    · exact (Nat.mod_lt _ cqEntries_pos).trans_le (hentries.trans (by decide))
    · exact (Nat.mod_lt _ hpos).trans (by omega)
  apply UInt64.toBitVec_inj.mp
  rw [UInt64.toBitVec_and]
  change BitVec.ofNat 64 _ &&& (BitVec.twoPow 64 32 - 1) = BitVec.ofNat 64 _
  apply BitVec.eq_of_toNat_eq
  rw [Library.PowerOfTwo.toNat_and_mask _ (by decide), BitVec.toNat_ofNat, Nat.mod_mod_of_dvd]
  · rw [Nat.mod_eq_of_lt hmod, Nat.mod_eq_of_lt (hmod.trans (by decide))]
  · exact Nat.pow_dvd_pow 2 (by decide)

/-- The event loop hands a doorbell to its handler while the device is enabled. -/
theorem handleEvent_bell {env : Env} {fuel : ℕ} {dev : NvmeDevice} (hpos : 0 < q.sqSize.toNat)
    (henabled : dev.enabled = true) : handleEvent env fuel dev (bell.event q) =
      nvmeHandleDoorbellWrite env fuel dev (bell.event q) := by
  have hge : nvmeRegSq0Tdbl ≤ (bell.event q).offset.toBitVec :=
    bellOffset_ge bell.queue bell.isCq
  have hne (reg : BitVec 64) (hreg : reg < nvmeRegSq0Tdbl) :
      (bell.event q).offset.toBitVec ≠ reg := by
    rintro rfl
    exact absurd hreg (BitVec.not_lt.mpr hge)
  have hbar : (bell.event q).bar = 0 := rfl
  have hwrite : (bell.event q).type &&& pciemEventMmioWrite ≠ 0 := by
    change pciemEventMmioWrite &&& pciemEventMmioWrite ≠ 0
    decide
  unfold handleEvent
  rw [masked_event q bell hpos]
  dsimp only
  rw [if_pos hwrite]
  unfold nvmeHandleWrite
  simp only [hbar, ne_eq, not_true_eq_false, if_false, henabled, Bool.true_eq_false,
    if_neg (BitVec.not_lt.mpr hge), hne nvmeRegCc (by decide), hne nvmeRegAqa (by decide),
    hne nvmeRegAsqLo (by decide), hne nvmeRegAsqHi (by decide), hne nvmeRegAcqLo (by decide),
    hne nvmeRegAcqHi (by decide)]
  rfl

end Bells

section Handler

open Relation

variable {p : Platform} {io : Fin maxQueues → Prop} {qs : Fin maxQueues → NvmeQueue} {env : Env}
  {s : Machine} {fuel : ℕ} {dev' : NvmeDevice} {bell : Bell}

variable (p io qs) in
/-- A turn of the loop is the steps of the card between two tests. -/
theorem turn_steps (hpc : s.pc = .turn bell)
    (h : doorbellStep env fuel bell.queue s.dev = .inl dev') :
    ∃ s', ReflTransGen (Step p io qs env) s s' ∧ s'.dev = dev' ∧ s'.pc = .turn bell ∧
      s'.ring = s.ring := by
  obtain ⟨hne, ⟨e, cmd, -, rfl⟩ | ⟨cmd, hread, hexecute⟩⟩ := doorbellStep_inl h
  · exact ⟨s, .refl, rfl, hpc, rfl⟩
  · obtain ⟨⟨status, result, dev⟩, hdispatch, hpost⟩ := Option.bind_eq_some_iff.mp hexecute
    cases hpost
    refine ⟨_, .head (.fetch hpc hne hread) (.head (.execute rfl hdispatch) (.single (.post rfl))),
      rfl, rfl, rfl⟩

variable (p io qs) in
theorem run_steps {m : ℕ} (hpc : s.pc = .turn bell)
    (h : Library.Loop.run (doorbellStep env fuel bell.queue) m s.dev = some (some dev')) :
    ∃ s', ReflTransGen (Step p io qs env) s s' ∧
      s'.dev = echo dev' nvmeRegSq0Tdbl (bell.event (qs bell.queue)) ∧ s'.pc = .idle ∧
        s'.ring = s.ring := by
  induction m generalizing s with
  | zero => cases h
  | succ m ih =>
    cases hstep : doorbellStep env fuel bell.queue s.dev with
    | inl dev =>
      rw [Library.Loop.run_of_inl hstep] at h
      obtain ⟨t, hst, rfl, hpc', hring⟩ := turn_steps p io qs hpc hstep
      obtain ⟨s', hts', hdev, hidle, hring'⟩ := ih hpc' h
      exact ⟨s', hst.trans hts', hdev, hidle, hring'.trans hring⟩
    | inr r =>
      rw [Library.Loop.run_of_inr hstep, Option.some_inj] at h
      subst h
      obtain ⟨heq, rfl⟩ := doorbellStep_inr_some hstep
      exact ⟨_, .single (.finish hpc heq), rfl, rfl, rfl⟩

/-- A whole call of the handler is a sequence of steps of the card. -/
theorem handler_steps {ring : List Bell} (hpc : s.pc = .idle) (hring : s.ring = bell :: ring)
    (h : nvmeHandleDoorbellWrite env fuel s.dev (bell.event (qs bell.queue)) = some dev') :
    ∃ s', ReflTransGen (Step p io qs env) s s' ∧ s'.dev = dev' ∧ s'.pc = .idle ∧
      s'.ring = ring := by
  have hqueue := event_queue (qs bell.queue) bell
  unfold nvmeHandleDoorbellWrite at h
  rw [hqueue] at h
  dsimp only at h
  split_ifs at h with hcq
  · cases h
    exact ⟨_, .single (.ack hpc hring hqueue hcq), rfl, hpc, rfl⟩
  · obtain ⟨dev, hrun, hdev⟩ := Option.bind_eq_some_iff.mp h
    cases hdev
    rw [Option.join_eq_some_iff] at hrun
    obtain ⟨s', hs', hdev, hidle, hring'⟩ := run_steps p io qs
      (s := (Machine.mk _ (.turn bell) ring s.pairs).setPair _ _) rfl hrun
    exact ⟨s', .head (.start hpc hring hqueue hcq) hs', hdev, hidle, hring'⟩

end Handler

end Pciem.Nvme.QueuePair
