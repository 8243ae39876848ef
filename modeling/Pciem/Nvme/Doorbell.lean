import Pciem.Library.Circular
import Pciem.Nvme.Card

namespace Pciem.Nvme.Doorbell

open Kernel Library.ByteMemory Library.Loop Library.Circular Dma.Indirect Dma.Local Card

section Queue

variable (q : NvmeQueue)

@[simp] theorem popped_id : q.popped.id = q.id := rfl
@[simp] theorem popped_sqTail : q.popped.sqTail = q.sqTail := rfl
@[simp] theorem popped_sqSize : q.popped.sqSize = q.sqSize := rfl
@[simp] theorem popped_vector : q.popped.vector = q.vector := rfl

theorem pushed_eq : ∃ cqTail cqPhase, q.pushed = { q with cqTail, cqPhase } := by
  unfold NvmeQueue.pushed
  split
  · exact ⟨_, _, rfl⟩
  · exact ⟨_, _, rfl⟩

@[simp] theorem pushed_id : q.pushed.id = q.id := by
  obtain ⟨_, _, h⟩ := pushed_eq q
  rw [h]

@[simp] theorem pushed_sqTail : q.pushed.sqTail = q.sqTail := by
  obtain ⟨_, _, h⟩ := pushed_eq q
  rw [h]

@[simp] theorem pushed_sqSize : q.pushed.sqSize = q.sqSize := by
  obtain ⟨_, _, h⟩ := pushed_eq q
  rw [h]

@[simp] theorem pushed_sqHead : q.pushed.sqHead = q.sqHead := by
  obtain ⟨_, _, h⟩ := pushed_eq q
  rw [h]

@[simp] theorem pushed_vector : q.pushed.vector = q.vector := by
  obtain ⟨_, _, h⟩ := pushed_eq q
  rw [h]

theorem toNat_popped_sqHead (h : q.sqSize ≠ 0) :
    q.popped.sqHead.toNat = (q.sqHead.toNat + 1) % q.sqSize.toNat := by
  have hpos : 0 < q.sqSize.toNat := Nat.pos_of_ne_zero fun hzero ↦ h (BitVec.eq_of_toNat_eq hzero)
  have hlt := Nat.mod_lt (q.sqHead.toNat + 1) hpos
  have hsize := q.sqSize.isLt
  unfold NvmeQueue.popped
  rw [BitVec.toNat_ofNat, Nat.mod_eq_of_lt (by omega)]

end Queue

section Frame

variable {env : Env} {fuel : ℕ} {dev dev' : NvmeDevice} {cmd : NvmeCommand} {i : Fin maxQueues}
  {status result : BitVec 32}

@[simp] theorem setQueue_self (dev : NvmeDevice) (i : Fin maxQueues) (q : NvmeQueue) :
    (dev.setQueue i q).queues i = q :=
  Function.update_self ..

theorem setQueue_other (dev : NvmeDevice) {i j : Fin maxQueues} (h : j ≠ i) (q : NvmeQueue) :
    (dev.setQueue i q).queues j = dev.queues j :=
  Function.update_of_ne h ..

theorem nvmeDmaRw_frame {prp1 prp2 offset : BitVec 64} {length : BitVec 32} {writeToHost : Bool}
    {ret : Except Errno Unit}
    (h : nvmeDmaRw env dev fuel prp1 prp2 offset length writeToHost = some (ret, dev')) :
    ∃ guest user, dev' = { dev with guest, user } := by
  unfold nvmeDmaRw at h
  obtain ⟨r, -, hr⟩ := Option.map_eq_some_iff.mp h
  cases hr
  exact ⟨_, _, rfl⟩

theorem answered_snd (r : Except Errno Unit × NvmeDevice) : (answered r).2 = r.2 := by
  unfold answered
  split
  · rfl
  · rfl

/-- An I/O command changes the memory of the guest and of the process, and nothing else. -/
theorem nvmeExecuteIoCommand_frame
    (h : nvmeExecuteIoCommand env fuel dev cmd = some (status, dev')) :
    ∃ guest user, dev' = { dev with guest, user } := by
  have htransfer (writeToHost : Bool)
      (h : nvmeIoTransfer env fuel dev cmd writeToHost = some (status, dev')) :
      ∃ guest user, dev' = { dev with guest, user } := by
    unfold nvmeIoTransfer at h
    split at h
    · cases h
      exact ⟨_, _, rfl⟩
    · obtain ⟨⟨ret, dev''⟩, hrw, hr⟩ := Option.map_eq_some_iff.mp h
      have hdev : dev'' = dev' := (answered_snd (ret, dev'')).symm.trans (congrArg Prod.snd hr)
      exact hdev ▸ nvmeDmaRw_frame hrw
  unfold nvmeExecuteIoCommand at h
  split at h
  · cases h
    exact ⟨_, _, rfl⟩
  · exact htransfer true h
  · exact htransfer false h
  · cases h
    exact ⟨_, _, rfl⟩

theorem dispatch_io (hid : (dev.queues i).id ≠ 0)
    (h : dispatch env fuel dev cmd i = some (status, result, dev')) :
    nvmeExecuteIoCommand env fuel dev cmd = some (status, dev') ∧ result = 0 := by
  unfold dispatch at h
  rw [if_neg hid] at h
  obtain ⟨r, hr, heq⟩ := Option.map_eq_some_iff.mp h
  cases heq
  exact ⟨hr, rfl⟩

theorem post_queues (env : Env) (dev : NvmeDevice) (cmd : NvmeCommand) (i : Fin maxQueues)
    (status result : BitVec 32) : (post env dev cmd i status result).queues =
      Function.update dev.queues i (dev.queues i).pushed :=
  rfl

theorem post_irqs (env : Env) (dev : NvmeDevice) (cmd : NvmeCommand) (i : Fin maxQueues)
    (status result : BitVec 32) : (post env dev cmd i status result).irqs =
      dev.irqs ++ [injection env dev.irqs.length (dev.queues i).vector] :=
  rfl

/-- What a command of an I/O queue does to the queues and to the interrupts that are asked for. -/
theorem nvmeExecuteCommand_io (hid : (dev.queues i).id ≠ 0)
    (h : nvmeExecuteCommand env fuel dev cmd i = some dev') :
    dev'.queues = Function.update dev.queues i (dev.queues i).pushed ∧
      dev'.irqs = dev.irqs ++ [injection env dev.irqs.length (dev.queues i).vector] := by
  unfold nvmeExecuteCommand at h
  obtain ⟨⟨status, result, dev''⟩, hdispatch, hpost⟩ := Option.bind_eq_some_iff.mp h
  cases hpost
  obtain ⟨guest, user, rfl⟩ := nvmeExecuteIoCommand_frame (dispatch_io hid hdispatch).1
  exact ⟨post_queues .., post_irqs ..⟩

end Frame

/-- The commands that the turns of the loop execute, from one device to another. -/
inductive Serves (env : Env) (fuel : ℕ) (i : Fin maxQueues) :
    NvmeDevice → List NvmeCommand → NvmeDevice → Prop
  | done (dev : NvmeDevice) : Serves env fuel i dev [] dev
  | next {dev dev' dev'' : NvmeDevice} {cmd : NvmeCommand} {cmds : List NvmeCommand} :
      nvmeReadSqEntry env dev (dev.queues i) = (.ok (), cmd) →
      nvmeExecuteCommand env fuel (dev.setQueue i (dev.queues i).popped) cmd i = some dev' →
      Serves env fuel i dev' cmds dev'' → Serves env fuel i dev (cmd :: cmds) dev''

/-- In every turn the next entry can be read and its command returns. -/
def Responsive (env : Env) (fuel : ℕ) (i : Fin maxQueues) (dev : NvmeDevice) : Prop :=
  ∀ t, Visits (doorbellStep env fuel i) dev t → (t.queues i).sqHead ≠ (t.queues i).sqTail →
    ∃ cmd t', nvmeReadSqEntry env t (t.queues i) = (.ok (), cmd) ∧
      nvmeExecuteCommand env fuel (t.setQueue i (t.queues i).popped) cmd i = some t'

section Turns

variable {env : Env} {fuel : ℕ} {dev dev' : NvmeDevice} {i : Fin maxQueues}

theorem Responsive.next (h : Responsive env fuel i dev)
    (hstep : doorbellStep env fuel i dev = .inl dev') : Responsive env fuel i dev' :=
  fun t ht ↦ h t (ht.head hstep)

/-- What a turn leaves of the queue, and of the others. -/
structure Turn (env : Env) (i : Fin maxQueues) (dev dev' : NvmeDevice) : Prop where
  id : (dev'.queues i).id = (dev.queues i).id
  sqTail : (dev'.queues i).sqTail = (dev.queues i).sqTail
  sqSize : (dev'.queues i).sqSize = (dev.queues i).sqSize
  vector : (dev'.queues i).vector = (dev.queues i).vector
  sqHead : (dev'.queues i).sqHead.toNat =
    ((dev.queues i).sqHead.toNat + 1) % (dev.queues i).sqSize.toNat
  irqs : dev'.irqs = dev.irqs ++ [injection env dev.irqs.length (dev.queues i).vector]
  others : ∀ j ≠ i, dev'.queues j = dev.queues j

theorem turn_of_execute {cmd : NvmeCommand} (hid : (dev.queues i).id ≠ 0)
    (hsize : (dev.queues i).sqSize ≠ 0)
    (h : nvmeExecuteCommand env fuel (dev.setQueue i (dev.queues i).popped) cmd i = some dev') :
    Turn env i dev dev' := by
  have hid' : ((dev.setQueue i (dev.queues i).popped).queues i).id ≠ 0 := by
    rw [setQueue_self]
    exact hid
  obtain ⟨hqueues, hirqs⟩ := nvmeExecuteCommand_io hid' h
  rw [setQueue_self] at hqueues hirqs
  have hq : dev'.queues i = (dev.queues i).popped.pushed := by
    rw [hqueues, Function.update_self]
  refine ⟨?_, ?_, ?_, ?_, ?_, hirqs, fun j hj ↦ ?_⟩
  · rw [hq, pushed_id, popped_id]
  · rw [hq, pushed_sqTail, popped_sqTail]
  · rw [hq, pushed_sqSize, popped_sqSize]
  · rw [hq, pushed_vector, popped_vector]
  · rw [hq, pushed_sqHead, toNat_popped_sqHead _ hsize]
  · rw [hqueues, Function.update_of_ne hj, setQueue_other dev hj]

theorem doorbellStep_done (h : (dev.queues i).sqHead = (dev.queues i).sqTail) :
    doorbellStep env fuel i dev = .inr (some dev) := by
  unfold doorbellStep
  rw [if_pos h]

theorem doorbellStep_next {cmd : NvmeCommand} (hne : (dev.queues i).sqHead ≠ (dev.queues i).sqTail)
    (hsize : (dev.queues i).sqSize ≠ 0)
    (hread : nvmeReadSqEntry env dev (dev.queues i) = (.ok (), cmd))
    (h : nvmeExecuteCommand env fuel (dev.setQueue i (dev.queues i).popped) cmd i = some dev') :
    doorbellStep env fuel i dev = .inl dev' := by
  unfold doorbellStep
  simp only [if_neg hne, hread, if_neg hsize, h]

theorem doorbellStep_inl (h : doorbellStep env fuel i dev = .inl dev') :
    (dev.queues i).sqHead ≠ (dev.queues i).sqTail ∧
      ((∃ e cmd, nvmeReadSqEntry env dev (dev.queues i) = (.error e, cmd) ∧ dev' = dev) ∨
        ∃ cmd, nvmeReadSqEntry env dev (dev.queues i) = (.ok (), cmd) ∧
          nvmeExecuteCommand env fuel (dev.setQueue i (dev.queues i).popped) cmd i =
            some dev') := by
  unfold doorbellStep at h
  dsimp only at h
  by_cases heq : (dev.queues i).sqHead = (dev.queues i).sqTail
  · rw [if_pos heq] at h
    cases h
  · rw [if_neg heq] at h
    refine ⟨heq, ?_⟩
    obtain ⟨ret, cmd, hread⟩ : ∃ ret cmd,
        nvmeReadSqEntry env dev (dev.queues i) = (ret, cmd) := ⟨_, _, rfl⟩
    rw [hread] at h ⊢
    cases ret with
    | error e =>
      cases h
      exact .inl ⟨e, cmd, rfl, rfl⟩
    | ok _ =>
      dsimp only at h
      refine .inr ⟨cmd, rfl, ?_⟩
      by_cases hsize : (dev.queues i).sqSize = 0
      · rw [if_pos hsize] at h
        cases h
      · rw [if_neg hsize] at h
        cases hexecute :
          nvmeExecuteCommand env fuel (dev.setQueue i (dev.queues i).popped) cmd i with
        | none =>
          rw [hexecute] at h
          cases h
        | some t =>
          rw [hexecute] at h
          cases h
          rfl

theorem doorbellStep_inr_some (h : doorbellStep env fuel i dev = .inr (some dev')) :
    (dev.queues i).sqHead = (dev.queues i).sqTail ∧ dev' = dev := by
  unfold doorbellStep at h
  dsimp only at h
  by_cases heq : (dev.queues i).sqHead = (dev.queues i).sqTail
  · rw [if_pos heq] at h
    cases h
    exact ⟨heq, rfl⟩
  · rw [if_neg heq] at h
    split at h
    · cases h
    · by_cases hsize : (dev.queues i).sqSize = 0
      · rw [if_pos hsize] at h
        cases h
      · rw [if_neg hsize] at h
        split at h
        · cases h
        · cases h

theorem exists_turn (hid : (dev.queues i).id ≠ 0) (hresp : Responsive env fuel i dev)
    (hne : (dev.queues i).sqHead ≠ (dev.queues i).sqTail) (hsize : (dev.queues i).sqSize ≠ 0) :
    ∃ cmd dev', nvmeReadSqEntry env dev (dev.queues i) = (.ok (), cmd) ∧
      nvmeExecuteCommand env fuel (dev.setQueue i (dev.queues i).popped) cmd i = some dev' ∧
      doorbellStep env fuel i dev = .inl dev' ∧ Turn env i dev dev' := by
  obtain ⟨cmd, dev', hread, hexecute⟩ := hresp dev .start hne
  exact ⟨cmd, dev', hread, hexecute, doorbellStep_next hne hsize hread hexecute,
    turn_of_execute hid hsize hexecute⟩

theorem sqSize_ne_zero {q : NvmeQueue} {n : ℕ} (h : n < q.sqSize.toNat) : q.sqSize ≠ 0 := by
  intro hzero
  rw [hzero] at h
  exact Nat.not_lt_zero n h

/-- The interrupts that are asked for after `count` completions of a queue. -/
def injections (env : Env) (n : ℕ) (vector : BitVec 16) (count : ℕ) :
    List (PciemIrqInject × Except Errno Unit) :=
  (List.range count).map fun k ↦ injection env (n + k) vector

theorem injections_succ (env : Env) (n : ℕ) (vector : BitVec 16) (count : ℕ) :
    injections env n vector (count + 1) =
      injection env n vector :: injections env (n + 1) vector count := by
  unfold injections
  rw [List.range_succ_eq_map, List.map_cons, List.map_map]
  refine congrArg (_ :: ·) (List.map_congr_left fun k _ ↦ ?_)
  rw [Function.comp_apply, Nat.succ_eq_add_one, Nat.add_assoc, Nat.add_comm 1 k]

/-- What has been done when the loop ends. -/
structure Served (env : Env) (fuel : ℕ) (i : Fin maxQueues) (dev : NvmeDevice)
    (cmds : List NvmeCommand) (dev' : NvmeDevice) : Prop where
  serves : Serves env fuel i dev cmds dev'
  sqHead : (dev'.queues i).sqHead = (dev.queues i).sqTail
  irqs : dev'.irqs =
    dev.irqs ++ injections env dev.irqs.length (dev.queues i).vector cmds.length
  others : ∀ j ≠ i, dev'.queues j = dev.queues j

theorem served_done (h : (dev.queues i).sqHead = (dev.queues i).sqTail) :
    Served env fuel i dev [] dev :=
  ⟨.done dev, h, (List.append_nil _).symm, fun _ _ ↦ rfl⟩

theorem Served.next {t : NvmeDevice} {cmd : NvmeCommand} {cmds : List NvmeCommand}
    (hread : nvmeReadSqEntry env dev (dev.queues i) = (.ok (), cmd))
    (h : nvmeExecuteCommand env fuel (dev.setQueue i (dev.queues i).popped) cmd i = some t)
    (hturn : Turn env i dev t) (hserved : Served env fuel i t cmds dev') :
    Served env fuel i dev (cmd :: cmds) dev' where
  serves := .next hread h hserved.serves
  sqHead := hserved.sqHead.trans hturn.sqTail
  irqs := by
    have hsucc := injections_succ env dev.irqs.length (dev.queues i).vector cmds.length
    rw [hserved.irqs, hturn.irqs, hturn.vector, List.length_append, List.append_assoc]
    exact congrArg (dev.irqs ++ ·) hsucc.symm
  others j hj := (hserved.others j hj).trans (hturn.others j hj)

/-- The loop, by the number of slots from the head to the tail. -/
theorem run_of_distance {d : ℕ} (hid : (dev.queues i).id ≠ 0)
    (hresp : Responsive env fuel i dev)
    (hhead : (dev.queues i).sqHead.toNat < (dev.queues i).sqSize.toNat)
    (htail : (dev.queues i).sqTail.toNat < (dev.queues i).sqSize.toNat)
    (hd : distance (dev.queues i).sqSize.toNat (dev.queues i).sqHead.toNat
      (dev.queues i).sqTail.toNat = d) :
    ∃ cmds dev', cmds.length = d ∧ Served env fuel i dev cmds dev' ∧
      run (doorbellStep env fuel i) (d + 1) dev = some (some dev') := by
  induction d generalizing dev with
  | zero =>
    have heq := BitVec.eq_of_toNat_eq (eq_of_distance_eq_zero hhead hd)
    exact ⟨[], dev, rfl, served_done heq, run_of_inr (doorbellStep_done heq) 0⟩
  | succ d ih =>
    have hne : (dev.queues i).sqHead ≠ (dev.queues i).sqTail := by
      intro heq
      rw [heq, distance_self] at hd
      cases hd
    obtain ⟨cmd, t, hread, hexecute, hstep, hturn⟩ :=
      exists_turn hid hresp hne (sqSize_ne_zero hhead)
    have hnext := distance_succ_mod hhead htail fun heq ↦ hne (BitVec.eq_of_toNat_eq heq)
    rw [← hturn.sqHead, hd, Nat.succ_inj] at hnext
    have hlt : (t.queues i).sqHead.toNat < (dev.queues i).sqSize.toNat := by
      rw [hturn.sqHead]
      exact Nat.mod_lt _ (Nat.zero_lt_of_lt hhead)
    rw [← hturn.sqSize, ← hturn.sqTail] at hnext
    obtain ⟨cmds, dev', hlength, hserved, hrun⟩ := ih (hturn.id ▸ hid) (hresp.next hstep)
      (hturn.sqSize ▸ hlt) (by rw [hturn.sqSize, hturn.sqTail]; exact htail) hnext
    refine ⟨cmd :: cmds, dev', congrArg Nat.succ hlength, hserved.next hread hexecute hturn, ?_⟩
    rw [run_of_inl hstep, hrun]

/-- Where the tail is not a slot, the head never reaches it. -/
theorem not_terminates_of_tail (hid : (dev.queues i).id ≠ 0) (hresp : Responsive env fuel i dev)
    (hne : (dev.queues i).sqHead ≠ (dev.queues i).sqTail) (hsize : (dev.queues i).sqSize ≠ 0)
    (htail : (dev.queues i).sqSize.toNat ≤ (dev.queues i).sqTail.toNat) :
    ¬ Terminates (doorbellStep env fuel i) dev := by
  refine not_terminates_of_forever (I := fun t ↦ (t.queues i).id ≠ 0 ∧ Responsive env fuel i t ∧
    (t.queues i).sqHead ≠ (t.queues i).sqTail ∧ (t.queues i).sqSize ≠ 0 ∧
    (t.queues i).sqSize.toNat ≤ (t.queues i).sqTail.toNat) ⟨hid, hresp, hne, hsize, htail⟩ ?_
  rintro t ⟨hid, hresp, hne, hsize, htail⟩
  obtain ⟨cmd, u, -, -, hstep, hturn⟩ := exists_turn hid hresp hne hsize
  have hpos : 0 < (t.queues i).sqSize.toNat :=
    Nat.pos_of_ne_zero fun hzero ↦ hsize (BitVec.eq_of_toNat_eq hzero)
  refine ⟨u, hstep, hturn.id ▸ hid, hresp.next hstep, fun heq ↦ ?_, hturn.sqSize ▸ hsize, ?_⟩
  · have hlt := Nat.mod_lt ((t.queues i).sqHead.toNat + 1) hpos
    rw [← hturn.sqHead, heq, hturn.sqTail] at hlt
    exact absurd hlt (Nat.not_lt.mpr htail)
  · rw [hturn.sqSize, hturn.sqTail]
    exact htail

theorem run_of_tail (hid : (dev.queues i).id ≠ 0) (hresp : Responsive env fuel i dev)
    (htail : (dev.queues i).sqHead = (dev.queues i).sqTail ∨
      (dev.queues i).sqTail < (dev.queues i).sqSize) :
    ∃ m cmds dev', ((dev.queues i).sqHead < (dev.queues i).sqSize →
        cmds.length = distance (dev.queues i).sqSize.toNat (dev.queues i).sqHead.toNat
          (dev.queues i).sqTail.toNat) ∧
      Served env fuel i dev cmds dev' ∧
      run (doorbellStep env fuel i) m dev = some (some dev') := by
  by_cases heq : (dev.queues i).sqHead = (dev.queues i).sqTail
  · refine ⟨1, [], dev, fun _ ↦ ?_, served_done heq, run_of_inr (doorbellStep_done heq) 0⟩
    rw [heq, distance_self]
    rfl
  have htail := htail.resolve_left heq
  by_cases hhead : (dev.queues i).sqHead < (dev.queues i).sqSize
  · obtain ⟨cmds, dev', hlength, hserved, hrun⟩ := run_of_distance hid hresp hhead htail rfl
    exact ⟨_, cmds, dev', fun _ ↦ hlength, hserved, hrun⟩
  · -- The head was no slot; after one command it is one.
    have hsize := sqSize_ne_zero htail
    obtain ⟨cmd, t, hread, hexecute, hstep, hturn⟩ := exists_turn hid hresp heq hsize
    have hlt : (t.queues i).sqHead.toNat < (t.queues i).sqSize.toNat := by
      rw [hturn.sqHead, hturn.sqSize]
      exact Nat.mod_lt _ (Nat.zero_lt_of_lt htail)
    obtain ⟨cmds, dev', -, hserved, hrun⟩ := run_of_distance (hturn.id ▸ hid)
      (hresp.next hstep) hlt (by rw [hturn.sqSize, hturn.sqTail]; exact htail) rfl
    exact ⟨_, cmd :: cmds, dev', fun h ↦ absurd h hhead, hserved.next hread hexecute hturn,
      (run_of_inl hstep _).trans hrun⟩

/-- While its entries can be read and its commands return, the card comes to the end of a doorbell
of an I/O queue exactly when the tail is the head already or a slot of the queue. It has then
executed the entries from the head up to the tail, each once, and has asked for an interrupt for
each; and where the tail is no slot it goes round the queue for ever. -/
theorem doorbell_served_iff (env : Env) (fuel : ℕ) (i : Fin maxQueues) (dev : NvmeDevice)
    (hid : (dev.queues i).id ≠ 0) (hresp : Responsive env fuel i dev) :
    ((∃ m dev', run (doorbellStep env fuel i) m dev = some (some dev')) ↔
      (dev.queues i).sqHead = (dev.queues i).sqTail ∨
        (dev.queues i).sqTail < (dev.queues i).sqSize) ∧
    (∀ m dev', run (doorbellStep env fuel i) m dev = some (some dev') →
      ∃ cmds, Served env fuel i dev cmds dev' ∧
        ((dev.queues i).sqHead < (dev.queues i).sqSize →
          cmds.length = distance (dev.queues i).sqSize.toNat (dev.queues i).sqHead.toNat
            (dev.queues i).sqTail.toNat)) ∧
    ((dev.queues i).sqHead ≠ (dev.queues i).sqTail → (dev.queues i).sqSize ≠ 0 →
      (dev.queues i).sqSize ≤ (dev.queues i).sqTail →
        ¬ Terminates (doorbellStep env fuel i) dev) := by
  have hends (m : ℕ) (dev' : NvmeDevice)
      (hrun : run (doorbellStep env fuel i) m dev = some (some dev')) :
      (dev.queues i).sqHead = (dev.queues i).sqTail ∨
        (dev.queues i).sqTail < (dev.queues i).sqSize := by
    by_contra hnot
    obtain ⟨hne, htail⟩ := not_or.mp hnot
    by_cases hsize : (dev.queues i).sqSize = 0
    · obtain ⟨cmd, t, hread, -⟩ := hresp dev .start hne
      have hstep : doorbellStep env fuel i dev = .inr none := by
        unfold doorbellStep
        simp only [if_neg hne, hread, if_pos hsize]
      cases run_unique hrun (run_of_inr hstep 0)
    · exact not_terminates_of_tail hid hresp hne hsize (BitVec.not_lt.mp htail) ⟨m, _, hrun⟩
  refine ⟨⟨?_, fun htail ↦ ?_⟩, fun m dev' hrun ↦ ?_,
    fun hne hsize htail ↦ not_terminates_of_tail hid hresp hne hsize htail⟩
  · rintro ⟨m, dev', hrun⟩
    exact hends m dev' hrun
  · obtain ⟨m, cmds, dev', -, -, hrun⟩ := run_of_tail hid hresp htail
    exact ⟨m, dev', hrun⟩
  · obtain ⟨m', cmds, dev'', hlength, hserved, hrun'⟩ :=
      run_of_tail hid hresp (hends m dev' hrun)
    cases run_unique hrun hrun'
    exact ⟨cmds, hserved, hlength⟩

end Turns

section Example

/-- The framework serves every system call. -/
def serving : Env where
  us := ⟨.registered, fun _ ↦ some Dma.Paged.direct⟩
  kernelBuf := some fun _ ↦ 0
  stack _ := 0
  allocated := true
  listBuf _ := 0
  dataBuf _ := 0
  uncopied _ _ := 0
  irqFunc _ := 0
  injectIrq _ := .ok ()

/-- Two commands wait on every queue, and the memory of the guest is all 0. -/
def rung : NvmeDevice where
  running := true
  enabled := true
  csts := 1
  queues i := ⟨true, 4, 4, 0x10000, 0x20000, 2, 0, 0, 0, 1, 1, BitVec.ofNat 16 i.val⟩
  ctrlId _ := 0
  diskData := 0
  bar0 _ := 0
  user _ := 0
  guest _ := 0
  irqs := []

def flush : NvmeCommand := ⟨0, 0, 0, 0, 0, 0, 0, 0⟩

def flushed (dev : NvmeDevice) : NvmeDevice :=
  post serving (dev.setQueue 1 (dev.queues 1).popped) flush 1 nvmeSuccess 0

theorem responsive_rung : Responsive serving 1 1 rung := by
  have hread : nvmeReadSqEntry serving rung (rung.queues 1) = (.ok (), flush) := rfl
  have hread' : nvmeReadSqEntry serving (flushed rung) ((flushed rung).queues 1) =
      (.ok (), flush) := rfl
  intro t ht
  have hvisited : t = rung ∨ t = flushed rung ∨ t = flushed (flushed rung) := by
    refine ht.invariant (I := fun t ↦ t = rung ∨ t = flushed rung ∨ t = flushed (flushed rung))
      (.inl rfl) fun t u _ ht hstep ↦ ?_
    rcases ht with rfl | rfl | rfl
    · cases hstep
      exact .inr (.inl rfl)
    · cases hstep
      exact .inr (.inr rfl)
    · cases hstep
  rcases hvisited with rfl | rfl | rfl
  · exact fun _ ↦ ⟨flush, _, hread, rfl⟩
  · exact fun _ ↦ ⟨flush, _, hread', rfl⟩
  · exact fun hne ↦ absurd rfl hne

theorem doorbell_served_iff_two_commands : (rung.queues 1).id ≠ 0 ∧
    (∃ m dev', run (doorbellStep serving 1 1) m rung = some (some dev')) ∧
    ∀ m dev', run (doorbellStep serving 1 1) m rung = some (some dev') →
      ∃ cmds, Served serving 1 1 rung cmds dev' ∧ cmds.length = 2 := by
  have hid : (rung.queues 1).id ≠ 0 := by decide
  obtain ⟨hiff, hserved, -⟩ := doorbell_served_iff serving 1 1 rung hid responsive_rung
  refine ⟨hid, hiff.mpr (.inr (by decide)), fun m dev' hrun ↦ ?_⟩
  obtain ⟨cmds, hcmds, hlength⟩ := hserved m dev' hrun
  exact ⟨cmds, hcmds, hlength (by decide)⟩

end Example

end Pciem.Nvme.Doorbell
