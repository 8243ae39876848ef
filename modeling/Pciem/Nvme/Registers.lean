import Pciem.Nvme.Doorbell

namespace Pciem.Nvme.Registers

open Kernel Library.ByteMemory Library.Loop Dma.Indirect Dma.Local Ring.SharedRing Card Doorbell

/-- Each queue has its index for its number. -/
def Numbered (dev : NvmeDevice) : Prop := ∀ i, (dev.queues i).id = BitVec.ofNat 16 i.val

/-- What the driver reads in `NVME_REG_CSTS` is `csts`, and there it sees whether the device is
enabled. Before the first reset the number of every queue is 0. -/
structure Shown (dev : NvmeDevice) : Prop where
  ready : dev.csts.getLsbD 0 = dev.enabled
  register : nvmeReadReg dev nvmeRegCsts = dev.csts
  numbers : (∀ i, (dev.queues i).id = 0) ∨ Numbered dev

/-- What stays as it was, except where the driver writes to `NVME_REG_CC`. -/
structure Kept (dev dev' : NvmeDevice) : Prop where
  csts : dev'.csts = dev.csts
  enabled : dev'.enabled = dev.enabled
  register : nvmeReadReg dev' nvmeRegCsts = nvmeReadReg dev nvmeRegCsts
  id : ∀ i, (dev'.queues i).id = (dev.queues i).id

section Kept

variable {dev dev' dev'' : NvmeDevice}

theorem Kept.refl (dev : NvmeDevice) : Kept dev dev := ⟨rfl, rfl, rfl, fun _ ↦ rfl⟩

theorem Kept.trans (h : Kept dev dev') (h' : Kept dev' dev'') : Kept dev dev'' where
  csts := h'.csts.trans h.csts
  enabled := h'.enabled.trans h.enabled
  register := h'.register.trans h.register
  id i := (h'.id i).trans (h.id i)

theorem Kept.shown (h : Kept dev dev') (hs : Shown dev) : Shown dev' where
  ready := by rw [h.csts, h.enabled, hs.ready]
  register := by rw [h.csts, h.register, hs.register]
  numbers := by
    unfold Numbered
    simp only [h.id]
    exact hs.numbers

theorem Kept.numbered (h : Kept dev dev') (hn : Numbered dev) : Numbered dev' :=
  fun i ↦ (h.id i).trans (hn i)

theorem kept_setQueue {i : Fin maxQueues} {q : NvmeQueue} (h : q.id = (dev.queues i).id) :
    Kept dev (dev.setQueue i q) where
  csts := rfl
  enabled := rfl
  register := rfl
  id j := by
    by_cases hj : j = i
    · rw [hj, setQueue_self, h]
    · rw [setQueue_other dev hj]

/-- A write to another register leaves `NVME_REG_CSTS` as it is. -/
theorem kept_writeReg {offset value : BitVec 64}
    (h : offset.toNat + 4 ≤ nvmeRegCsts.toNat ∨ nvmeRegCsts.toNat + 4 ≤ offset.toNat) :
    Kept dev (nvmeWriteReg dev offset value 4) where
  csts := rfl
  enabled := rfl
  register := by
    refine load_congr fun k hk ↦ store_outside ?_
    rw [length_bytes]
    omega
  id _ := rfl

end Kept

section Commands

variable {env : Env} {fuel : ℕ} {dev dev' : NvmeDevice} {cmd : NvmeCommand} {i : Fin maxQueues}
  {status result : BitVec 32}

theorem kept_answered (env : Env) (dev : NvmeDevice) (guestIova : BitVec 64)
    (bs : List (BitVec 8)) : Kept dev (answered (nvmeDmaWrite env dev guestIova bs)).2 := by
  rw [answered_snd]
  exact ⟨rfl, rfl, rfl, fun _ ↦ rfl⟩

theorem kept_identify (env : Env) (dev : NvmeDevice) (cmd : NvmeCommand) :
    Kept dev (nvmeIdentify env dev cmd).2 := by
  unfold nvmeIdentify nvmeIdentifyCns0 nvmeIdentifyCns1 nvmeIdentifyCns2 nvmeIdentifyCns3
  have hkept {c : Prop} [Decidable c] {refused : BitVec 32} {bs : List (BitVec 8)} :
      Kept dev (if c then (refused, dev)
        else answered (nvmeDmaWrite env dev cmd.prp1 bs)).2 := by
    split_ifs
    · exact .refl dev
    · exact kept_answered ..
  split
  · exact hkept
  · exact hkept
  · exact hkept
  · exact hkept
  · exact .refl dev

theorem kept_createCq (dev : NvmeDevice) (cmd : NvmeCommand) :
    Kept dev (nvmeCreateCq dev cmd).2 := by
  unfold nvmeCreateCq
  split
  · exact .refl dev
  · exact kept_setQueue (by rfl)

theorem kept_createSq (dev : NvmeDevice) (cmd : NvmeCommand) :
    Kept dev (nvmeCreateSq dev cmd).2 := by
  unfold nvmeCreateSq
  split
  · exact .refl dev
  · exact kept_setQueue (by rfl)

theorem kept_deleteQueue (dev : NvmeDevice) (cmd : NvmeCommand) :
    Kept dev (nvmeDeleteQueue dev cmd).2 := by
  unfold nvmeDeleteQueue
  split
  · exact .refl dev
  · exact kept_setQueue (by rfl)

theorem kept_admin (env : Env) (dev : NvmeDevice) (cmd : NvmeCommand) :
    Kept dev (nvmeExecuteAdminCommand env dev cmd).2.2 := by
  unfold nvmeExecuteAdminCommand
  split
  · exact .refl dev
  · exact kept_identify env dev cmd
  · exact kept_createCq dev cmd
  · exact kept_createSq dev cmd
  · exact kept_deleteQueue dev cmd
  · exact kept_deleteQueue dev cmd
  · exact .refl dev
  · exact .refl dev

theorem kept_dispatch (h : dispatch env fuel dev cmd i = some (status, result, dev')) :
    Kept dev dev' := by
  unfold dispatch at h
  split_ifs at h
  · have hadmin := kept_admin env dev cmd
    rw [Option.some_inj.mp h] at hadmin
    exact hadmin
  · obtain ⟨r, hr, heq⟩ := Option.map_eq_some_iff.mp h
    cases heq
    obtain ⟨guest, user, hdev⟩ := nvmeExecuteIoCommand_frame hr
    rw [hdev]
    exact ⟨rfl, rfl, rfl, fun _ ↦ rfl⟩

theorem kept_execute (h : nvmeExecuteCommand env fuel dev cmd i = some dev') : Kept dev dev' := by
  obtain ⟨⟨status, result, dev''⟩, hdispatch, hpost⟩ := Option.bind_eq_some_iff.mp h
  cases hpost
  refine (kept_dispatch hdispatch).trans ⟨rfl, rfl, rfl, fun j ↦ ?_⟩
  exact (kept_setQueue (pushed_id _)).id j

theorem kept_run {m : ℕ} (h : run (doorbellStep env fuel i) m dev = some (some dev')) :
    Kept dev dev' := by
  induction m generalizing dev with
  | zero => cases h
  | succ m ih =>
    cases hstep : doorbellStep env fuel i dev with
    | inl t =>
      rw [run_of_inl hstep] at h
      obtain ⟨-, ⟨e, cmd, -, rfl⟩ | ⟨cmd, -, hexecute⟩⟩ := doorbellStep_inl hstep
      · exact ih h
      · exact (kept_setQueue (popped_id _)).trans ((kept_execute hexecute).trans (ih h))
    | inr r =>
      rw [run_of_inr hstep, Option.some_inj] at h
      subst h
      rw [(doorbellStep_inr_some hstep).2]
      exact .refl dev

end Commands

section Writes

variable {env : Env} {fuel : ℕ} {dev dev' : NvmeDevice} {ev : PciemEvent}

theorem kept_echo {reg : BitVec 64} (hreg : nvmeRegSq0Tdbl ≤ reg) (hlast : reg ≤ nvmeRegCq0Hdbl)
    (hqueue : (doorbellQueue ev).toNat < maxQueues) : Kept dev (echo dev reg ev) := by
  refine kept_writeReg (.inr ?_)
  unfold nvmeRegSq0Tdbl at hreg
  unfold nvmeRegCq0Hdbl at hlast
  unfold nvmeRegCsts
  unfold maxQueues at hqueue
  bv_omega

theorem kept_doorbell (h : nvmeHandleDoorbellWrite env fuel dev ev = some dev') :
    Kept dev dev' := by
  unfold nvmeHandleDoorbellWrite at h
  cases hqueue : nvmeGetQueue (doorbellQueue ev) with
  | none =>
    rw [hqueue] at h
    cases h
    exact .refl dev
  | some i =>
    have hlt : (doorbellQueue ev).toNat < maxQueues := by
      unfold nvmeGetQueue at hqueue
      split_ifs at hqueue with hlt
      exact hlt
    rw [hqueue] at h
    dsimp only at h
    split_ifs at h
    · cases h
      exact (kept_setQueue (by rfl)).trans (kept_echo (by decide) (by decide) hlt)
    · obtain ⟨t, hrun, hdev⟩ := Option.bind_eq_some_iff.mp h
      cases hdev
      rw [Option.join_eq_some_iff] at hrun
      exact (kept_setQueue (by rfl)).trans
        ((kept_run hrun).trans (kept_echo (by decide) (by decide) hlt))

theorem kept_adminReg {set : NvmeQueue → BitVec 32 → NvmeQueue}
    (hset : ∀ q data, (set q data).id = q.id)
    (hoffset : nvmeRegCsts.toNat + 4 ≤ ev.offset.toBitVec.toNat) :
    Kept dev (writeAdminReg dev ev set) := by
  unfold writeAdminReg
  split_ifs
  · exact .refl dev
  · exact (kept_setQueue (hset _ _)).trans (kept_writeReg (.inr hoffset))

theorem read_writeCsts (dev : NvmeDevice) (csts : BitVec 32) :
    nvmeReadReg (writeCsts dev csts) nvmeRegCsts = csts := by
  have hload : (load (writeCsts dev csts).bar0 nvmeRegCsts.toNat 4 : BitVec 32) =
      csts.setWidth 32 := (load_eq_iff csts rfl (le_refl _)).mpr fun k hk ↦ by
      rw [← byte_setWidth csts (w := 64) (by omega) (by decide)]
      exact store_bytes hk
  rwa [BitVec.setWidth_eq] at hload

theorem ready_setRdy (csts : BitVec 32) (rdy : Bool) : (setRdy csts rdy).getLsbD 0 = rdy := by
  unfold setRdy
  cases rdy with
  | false | true => simp

theorem ready_setShst (csts : BitVec 32) (shst : BitVec 2) :
    (setShst csts shst).getLsbD 0 = csts.getLsbD 0 := by
  unfold setShst
  simp

theorem numbered_reset (dev : NvmeDevice) : Numbered (nvmeResetQueues dev) := fun _ ↦ rfl

theorem id_enable (dev : NvmeDevice) (i : Fin maxQueues) :
    ((nvmeEnable dev).queues i).id = (dev.queues i).id :=
  (kept_setQueue (by rfl)).id i

theorem shown_cc (h : Shown dev) (ev : PciemEvent) : Shown (nvmeHandleCcWrite dev ev) := by
  unfold nvmeHandleCcWrite
  dsimp only
  split_ifs
  · exact ⟨ready_setRdy .., read_writeCsts .., .inr (numbered_reset _)⟩
  · refine ⟨?_, read_writeCsts .., ?_⟩
    · exact (ready_setShst ..).trans (ready_setRdy ..)
    · refine h.numbers.imp (fun hzero i ↦ ?_) fun hn i ↦ ?_
      · exact (id_enable dev i).trans (hzero i)
      · exact (id_enable dev i).trans (hn i)
  · have hzero : (0 : BitVec 32).getLsbD 0 = false := by decide
    exact ⟨hzero, read_writeCsts .., .inr (numbered_reset _)⟩

theorem numbered_cc (h : Numbered dev) (ev : PciemEvent) :
    Numbered (nvmeHandleCcWrite dev ev) := by
  unfold nvmeHandleCcWrite
  dsimp only
  split_ifs
  · exact numbered_reset _
  · exact fun i ↦ (id_enable dev i).trans (h i)
  · exact numbered_reset _

/-- An event that is not a write to `NVME_REG_CC` keeps what the registers show. -/
theorem handleEvent_cases (h : handleEvent env fuel dev ev = some dev') :
    Kept dev dev' ∨ dev' = nvmeHandleCcWrite dev { ev with
      data := ev.data &&& size2mask ev.size.toUInt64 } := by
  unfold handleEvent at h
  dsimp only at h
  split_ifs at h
  · unfold nvmeHandleWrite at h
    dsimp only at h
    split_ifs at h with hbar hcc haqa hasqLo hasqHi hacqLo hacqHi
    · cases h
      exact .inl (.refl dev)
    · cases h
      exact .inr rfl
    all_goals left
    · cases h
      exact kept_adminReg (fun _ _ ↦ rfl) (haqa ▸ by decide)
    · cases h
      exact kept_adminReg (fun _ _ ↦ rfl) (hasqLo ▸ by decide)
    · cases h
      exact kept_adminReg (fun _ _ ↦ rfl) (hasqHi ▸ by decide)
    · cases h
      exact kept_adminReg (fun _ _ ↦ rfl) (hacqLo ▸ by decide)
    · cases h
      exact kept_adminReg (fun _ _ ↦ rfl) (hacqHi ▸ by decide)
    · cases h
      exact .refl dev
    · cases h
      exact .refl dev
    · exact kept_doorbell h
  · cases h
    exact .inl (.refl dev)

end Writes

section Runs

variable {env : Env} {fuel : ℕ} {dev dev' : NvmeDevice}

/-- What a write to `NVME_REG_CC` and everything else preserves, holds after any events. -/
theorem invariant_run {I : NvmeDevice → Prop} (hkept : ∀ t u, Kept t u → I t → I u)
    (hcc : ∀ t ev, I t → I (nvmeHandleCcWrite t ev)) (events : List PciemEvent) (h : I dev)
    (hrun : events.foldlM (handleEvent env fuel) dev = some dev') : I dev' := by
  induction events generalizing dev with
  | nil =>
    cases hrun
    exact h
  | cons ev events ih =>
    rw [List.foldlM_cons] at hrun
    obtain ⟨t, hstep, hrest⟩ := Option.bind_eq_some_iff.mp hrun
    refine ih ?_ hrest
    obtain hkept' | rfl := handleEvent_cases hstep
    · exact hkept _ _ hkept' h
    · exact hcc _ _ h

/-- Whatever events the card is handed, its registers show whether it is enabled. -/
theorem shown_run (events : List PciemEvent) (h : Shown dev)
    (hrun : events.foldlM (handleEvent env fuel) dev = some dev') : Shown dev' :=
  invariant_run (fun _ _ hkept ↦ hkept.shown) (fun _ ev ht ↦ shown_cc ht ev) events h hrun

/-- Once the device has been reset, its first queue only is the one of the admin commands. -/
theorem id_eq_zero_iff (events : List PciemEvent) (h : Numbered dev)
    (hrun : events.foldlM (handleEvent env fuel) dev = some dev') (i : Fin maxQueues) :
    (dev'.queues i).id = 0 ↔ i = 0 := by
  have hnumbered : Numbered dev' :=
    invariant_run (fun _ _ hkept ↦ hkept.numbered) (fun _ ev ht ↦ numbered_cc ht ev) events h hrun
  rw [hnumbered i]
  revert i
  decide

end Runs

end Pciem.Nvme.Registers
