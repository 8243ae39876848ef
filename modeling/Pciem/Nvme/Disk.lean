import Pciem.Dma.Window
import Pciem.Library.TransitionSystem
import Pciem.Nvme.Doorbell

namespace Pciem.Nvme.Disk

open Kernel Library.ByteMemory Library.Scatter Library.Loop Library.TransitionSystem Dma.Paged
  Dma.Prp Dma.Indirect Dma.Local Dma.Window Card Doorbell

/-- The bytes of the disk. -/
def disk (dev : NvmeDevice) : Memory := fun x ↦ dev.user (dev.diskData + BitVec.ofNat 64 x)

/-- The framework also has memory for a command's transfer, and the disk can be copied. -/
structure Backed (env : Env) (p : Platform) : Prop extends Serving env p where
  allocated : env.allocated = true
  copies : ∀ ptr n, env.uncopied ptr n = 0

/-- The blocks of the command are blocks of the disk. -/
def Fits (cmd : NvmeCommand) : Prop := cmd.slba.toNat + cmd.nlb.toNat ≤ nvmeTotalSectors.toNat

/-- The transfer that a command asks the framework for. -/
def callOf (env : Env) (dev : NvmeDevice) (cmd : NvmeCommand) (writeToHost : Bool) : Call :=
  rwCall env dev cmd.prp1 cmd.prp2 cmd.offset (cmd.len.setWidth 32) writeToHost

/-- The command's PRP entries give these segments of the guest's memory, and the framework can
reach them and the lists. -/
structure Described (env : Env) (p : Platform) (dev : NvmeDevice) (cmd : NvmeCommand)
    (writeToHost : Bool) (segments : List Segment) : Prop where
  lists : ∃ lists, PrpSegments p dev.guest (callOf env dev cmd writeToHost).req segments lists ∧
    (∀ list ∈ lists, Accessible p (list, tail 4096 list)) ∧
      KeepsLists (callOf env dev cmd writeToHost) p segments lists
  accessible : ∀ segment ∈ segments, Accessible p segment

section Numbers

variable {cmd : NvmeCommand}

theorem toNat_nlb (cmd : NvmeCommand) : 1 ≤ cmd.nlb.toNat ∧ cmd.nlb.toNat ≤ 2 ^ 16 := by
  have hlt := (cmd.cdw12.setWidth 16).isLt
  unfold NvmeCommand.nlb
  rw [BitVec.toNat_add, BitVec.toNat_setWidth_of_le (by decide)]
  change 1 ≤ (_ + 1) % _ ∧ (_ + 1) % _ ≤ _
  omega

theorem toNat_len (cmd : NvmeCommand) : (cmd.len.setWidth 32).toNat = cmd.nlb.toNat * 4096 := by
  have hnlb := (toNat_nlb cmd).2
  unfold NvmeCommand.len
  rw [BitVec.toNat_setWidth, BitVec.toNat_shiftLeft, BitVec.toNat_setWidth_of_le (by decide),
    Nat.shiftLeft_eq]
  omega

theorem len_ne_zero (cmd : NvmeCommand) : cmd.len.setWidth 32 ≠ 0 := by
  have hnlb := (toNat_nlb cmd).1
  intro hzero
  have hlen := toNat_len cmd
  rw [hzero] at hlen
  change 0 = _ at hlen
  omega

/-- The offset loses the block numbers from 2^52 on. -/
theorem toNat_offset (cmd : NvmeCommand) :
    cmd.offset.toNat = cmd.slba.toNat % 2 ^ 52 * 4096 := by
  unfold NvmeCommand.offset
  rw [BitVec.toNat_shiftLeft, Nat.shiftLeft_eq]
  omega

theorem toNat_nvmeDiskSize : nvmeDiskSize.toNat = 2 ^ 18 * 4096 := by
  decide

theorem toNat_nvmeTotalSectors : nvmeTotalSectors.toNat = 2 ^ 18 := by
  decide

theorem Fits.offset_eq (h : Fits cmd) : cmd.offset.toNat = cmd.slba.toNat * 4096 := by
  unfold Fits at h
  rw [toNat_nvmeTotalSectors] at h
  rw [toNat_offset, Nat.mod_eq_of_lt (by omega)]

theorem Fits.end_le (h : Fits cmd) :
    cmd.offset.toNat + cmd.nlb.toNat * 4096 ≤ nvmeDiskSize.toNat := by
  rw [h.offset_eq, toNat_nvmeDiskSize]
  unfold Fits at h
  rw [toNat_nvmeTotalSectors] at h
  omega

theorem Fits.accepted (h : Fits cmd) : ¬ cmd.offset ≥ nvmeDiskSize := by
  have hend := h.end_le
  have hnlb := (toNat_nlb cmd).1
  rw [ge_iff_le, BitVec.le_def]
  omega

end Numbers

section Transfers

variable {c : Call} {v : Platform} {t : Transfer}

theorem indirect_unique {fuel fuel' : ℕ} {r r' : Outcome}
    (h : pciemIoctlDmaIndirect c t fuel = some r)
    (h' : pciemIoctlDmaIndirect c t fuel' = some r') : r = r' := by
  unfold pciemIoctlDmaIndirect at h h'
  cases hstart : dmaIndirectStart c t with
  | inr q =>
    rw [hstart, Option.some_inj] at h h'
    exact h.symm.trans h'
  | inl s =>
    rw [hstart] at h h'
    exact run_unique h h'

/-- The transfer returns, with the bytes of the segments moved in their order. -/
theorem indirect_returns (hready : Ready c v) {segments : List Segment} {lists : List (BitVec 64)}
    (hsegments : PrpSegments v t.guest c.req segments lists)
    (haccess : ∀ segment ∈ segments, Accessible v segment)
    (hlists : ∀ list ∈ lists, Accessible v (list, tail c.req.pageSize.toNat list))
    (hkeep : KeepsLists c v segments lists) : ∃ fuel, pciemIoctlDmaIndirect c t fuel =
      some (.ok (), transferred (Writes c.req) t.guest t.user c.req.userAddr
        (cells v segments)) := by
  have hsize := hready.pageSize
  have hlen : 0 < c.req.length.toNat :=
    Nat.pos_of_ne_zero fun h ↦ hready.length (BitVec.eq_of_toNat_eq h)
  unfold pciemIoctlDmaIndirect
  rw [hready.start_eq]
  cases hsegments with
  | one hone =>
    rw [transferStart_one hready.copies hsize hlen hone (haccess _ List.mem_cons_self)]
    exact ⟨0, rfl⟩
  | two rest hrest hpage hsum =>
    rw [transferStart_two hready.copies hsize hrest hpage hsum (haccess _ List.mem_cons_self)
      (haccess _ (by simp))]
    exact ⟨0, rfl⟩
  | list rest hmore hsum hlisted =>
    obtain ⟨s, hstart, hrun⟩ := transferStart_list hready.copies hsize hmore
      (t := { t with remaining := c.req.length, userPtr := c.req.userAddr }) hsum hlisted
      (haccess _ List.mem_cons_self) (fun s hs ↦ haccess s (List.mem_cons_of_mem _ hs)) hlists hkeep
    rw [hstart]
    exact hrun

variable {env : Env} {p : Platform} {dev : NvmeDevice} {cmd : NvmeCommand} {writeToHost : Bool}
  {segments : List Segment}

theorem Backed.ready (dev : NvmeDevice) (cmd : NvmeCommand) (writeToHost : Bool)
    (h : Backed env p) : Ready (callOf env dev cmd writeToHost) p where
  registered := h.registered
  argCopied := rfl
  allocated := h.allocated
  func := h.function
  copies := h.copies
  pageSize := by
    change ValidPageSize 4096
    decide
  length := len_ne_zero cmd

/-- What a transfer leaves of the device. -/
def moved (env : Env) (p : Platform) (dev : NvmeDevice) (cmd : NvmeCommand) (writeToHost : Bool)
    (segments : List Segment) : NvmeDevice :=
  let memories := transferred (Writes (callOf env dev cmd writeToHost).req) dev.guest dev.user
    (dev.diskData + cmd.offset) (cells p segments)
  { dev with guest := memories.1, user := memories.2 }

/-- A command that is not refused returns, with success and with its bytes moved. -/
theorem nvmeIoTransfer_eq (h : Backed env p) (haccepted : ¬ cmd.offset ≥ nvmeDiskSize)
    (hdescribed : Described env p dev cmd writeToHost segments) :
    (∃ fuel, nvmeIoTransfer env fuel dev cmd writeToHost =
      some (nvmeSuccess, moved env p dev cmd writeToHost segments)) ∧
    ∀ fuel r, nvmeIoTransfer env fuel dev cmd writeToHost = some r →
      r = (nvmeSuccess, moved env p dev cmd writeToHost segments) := by
  obtain ⟨lists, hsegments, hlists, hkeep⟩ := hdescribed.lists
  obtain ⟨fuel, hreturns⟩ := indirect_returns (t := ⟨dev.guest, dev.user, env.listBuf, env.dataBuf,
    0, 0, 0, 0, 0, 0⟩) (h.ready dev cmd writeToHost) hsegments
    hdescribed.accessible hlists hkeep
  have hreturn : nvmeIoTransfer env fuel dev cmd writeToHost =
      some (nvmeSuccess, moved env p dev cmd writeToHost segments) := by
    unfold nvmeIoTransfer nvmeDmaRw
    rw [if_neg haccepted]
    unfold callOf at hreturns
    rw [hreturns]
    rfl
  refine ⟨⟨fuel, hreturn⟩, fun fuel' r hr ↦ ?_⟩
  unfold nvmeIoTransfer nvmeDmaRw at hr
  rw [if_neg haccepted] at hr
  obtain ⟨q, hq, rfl⟩ := Option.map_eq_some_iff.mp hr
  obtain ⟨o, ho, rfl⟩ := Option.map_eq_some_iff.mp hq
  rw [indirect_unique ho hreturns]
  rfl

theorem length_cells (hdescribed : Described env p dev cmd writeToHost segments) :
    (cells p segments).length = cmd.nlb.toNat * 4096 := by
  obtain ⟨lists, hsegments, -⟩ := hdescribed.lists
  exact (hsegments.length_cells (by change 0 < 4096; decide)).trans (toNat_len cmd)

theorem zip_range {A : Type} (f : ℕ → A) (l : List (BitVec 8)) :
    ((List.range l.length).map f).zip l =
      (List.range l.length).map fun k ↦ (f k, l.getD k 0) := by
  apply List.ext_getElem
  · simp
  · intro k hk hk'
    simp at hk hk' ⊢
    simp [hk]

theorem diskData_add (dev : NvmeDevice) (cmd : NvmeCommand) (k : ℕ) :
    dev.diskData + cmd.offset + BitVec.ofNat 64 k =
      dev.diskData + BitVec.ofNat 64 (cmd.offset.toNat + k) := by
  rw [BitVec.add_assoc, BitVec.ofNat_add, BitVec.ofNat_toNat, BitVec.setWidth_eq]

theorem moved_read (env : Env) (p : Platform) (dev : NvmeDevice) (cmd : NvmeCommand)
    (segments : List Segment) : moved env p dev cmd true segments = { dev with
      guest := scatter dev.guest ((cells p segments).zip
        ((List.range (cells p segments).length).map fun k ↦
          disk dev (cmd.offset.toNat + k))) } := by
  unfold moved transferred
  have hwrites : Writes (callOf env dev cmd true).req := by
    change (0x2 : BitVec 32) &&& pciemDmaFlagWrite ≠ 0
    decide
  simp only [if_pos hwrites]
  unfold userCells
  rw [List.map_map]
  congr 3
  refine List.map_congr_left fun k _ ↦ ?_
  exact congrArg dev.user (diskData_add dev cmd k)

theorem moved_write_user (env : Env) (p : Platform) (dev : NvmeDevice) (cmd : NvmeCommand)
    (segments : List Segment) : (moved env p dev cmd false segments).user = scatter dev.user
      ((List.range (cells p segments).length).map fun k ↦
        (dev.diskData + BitVec.ofNat 64 (cmd.offset.toNat + k),
          ((cells p segments).map dev.guest).getD k 0)) := by
  have hwrites : ¬ Writes (callOf env dev cmd false).req := by
    change ¬ (0x1 : BitVec 32) &&& pciemDmaFlagWrite ≠ 0
    decide
  have hzip := zip_range (fun k ↦ dev.diskData + cmd.offset + BitVec.ofNat 64 k)
    ((cells p segments).map dev.guest)
  rw [List.length_map] at hzip
  simp only [diskData_add] at hzip
  unfold moved transferred userCells
  simp only [if_neg hwrites, diskData_add, hzip]

theorem disk_moved_write (env : Env) (p : Platform) (dev : NvmeDevice) {cmd : NvmeCommand}
    {segments : List Segment} (hend : cmd.offset.toNat + (cells p segments).length ≤ 2 ^ 30)
    {x : ℕ} (hx : x < 2 ^ 30) : disk (moved env p dev cmd false segments) x =
      store (disk dev) cmd.offset.toNat ((cells p segments).map dev.guest) x := by
  have hinj {a b : ℕ} (ha : a < 2 ^ 30) (hb : b < 2 ^ 30)
      (hab : dev.diskData + BitVec.ofNat 64 a = dev.diskData + BitVec.ofNat 64 b) : a = b := by
    have hsame := congrArg BitVec.toNat ((BitVec.add_right_inj _).mp hab)
    rw [BitVec.toNat_ofNat, BitVec.toNat_ofNat] at hsame
    omega
  have hlength : ((cells p segments).map dev.guest).length = (cells p segments).length :=
    List.length_map ..
  unfold disk
  rw [moved_write_user]
  by_cases hin : cmd.offset.toNat ≤ x ∧ x < cmd.offset.toNat + (cells p segments).length
  · obtain ⟨k, rfl⟩ := Nat.exists_eq_add_of_le hin.1
    have hk : k < (cells p segments).length := by omega
    rw [store_inside (by rwa [hlength])]
    refine (scatter_range_of_injOn (fun a ha b hb hab ↦ ?_) hk).trans
      (List.getD_eq_getElem _ _ (by rwa [hlength]))
    have hsum := hinj (by omega) (by omega) hab
    omega
  · rw [store_outside (by rw [hlength]; omega)]
    refine scatter_range_of_ne fun k hk hab ↦ hin ?_
    have hsum := hinj (by omega) hx hab
    omega

end Transfers

section Store

/-- The device, and what has been written to the disk, each write with its offset. -/
structure Store where
  dev : NvmeDevice
  writes : List (ℕ × List (BitVec 8))

/-- The memory of the guest changes in any way, and the card executes commands: reads and writes
whose blocks are on the disk, and those that move nothing. -/
inductive Step (env : Env) (p : Platform) : Store → Store → Prop
  | guest {s : Store} (guest : Memory) : Step env p s { s with dev := { s.dev with guest } }
  | write {s : Store} {cmd : NvmeCommand} {segments : List Segment} {fuel : ℕ}
      {status : BitVec 32} {dev : NvmeDevice} (hop : cmd.opcode = 0x01) (hfits : Fits cmd)
      (hdescribed : Described env p s.dev cmd false segments)
      (h : nvmeExecuteIoCommand env fuel s.dev cmd = some (status, dev)) :
      Step env p s ⟨dev, s.writes ++
        [(cmd.slba.toNat * 4096, (cells p segments).map s.dev.guest)]⟩
  | read {s : Store} {cmd : NvmeCommand} {segments : List Segment} {fuel : ℕ}
      {status : BitVec 32} {dev : NvmeDevice} (hop : cmd.opcode = 0x02) (hfits : Fits cmd)
      (hdescribed : Described env p s.dev cmd true segments)
      (h : nvmeExecuteIoCommand env fuel s.dev cmd = some (status, dev)) :
      Step env p s ⟨dev, s.writes⟩
  | other {s : Store} {cmd : NvmeCommand} {fuel : ℕ} {status : BitVec 32} {dev : NvmeDevice}
      (hop : cmd.offset ≥ nvmeDiskSize ∨ cmd.opcode ≠ 0x01 ∧ cmd.opcode ≠ 0x02)
      (h : nvmeExecuteIoCommand env fuel s.dev cmd = some (status, dev)) :
      Step env p s ⟨dev, s.writes⟩

def blockStore (env : Env) (p : Platform) (start : NvmeDevice) : System Store where
  init s := s = ⟨start, []⟩
  next := Step env p

variable {env : Env} {p : Platform} {dev : NvmeDevice} {cmd : NvmeCommand} {fuel : ℕ}
  {status : BitVec 32} {dev' : NvmeDevice}

theorem execute_write (hop : cmd.opcode = 0x01) : nvmeExecuteIoCommand env fuel dev cmd =
    nvmeIoTransfer env fuel dev cmd false := by
  unfold nvmeExecuteIoCommand
  rw [hop]
  rfl

theorem execute_read (hop : cmd.opcode = 0x02) : nvmeExecuteIoCommand env fuel dev cmd =
    nvmeIoTransfer env fuel dev cmd true := by
  unfold nvmeExecuteIoCommand
  rw [hop]
  rfl

theorem execute_other (hop : cmd.offset ≥ nvmeDiskSize ∨ cmd.opcode ≠ 0x01 ∧ cmd.opcode ≠ 0x02)
    (h : nvmeExecuteIoCommand env fuel dev cmd = some (status, dev')) : dev' = dev := by
  have htransfer (writeToHost : Bool) (hop : cmd.offset ≥ nvmeDiskSize)
      (h : nvmeIoTransfer env fuel dev cmd writeToHost = some (status, dev')) : dev' = dev := by
    unfold nvmeIoTransfer at h
    rw [if_pos hop] at h
    cases h
    rfl
  unfold nvmeExecuteIoCommand at h
  split at h
  · cases h
    rfl
  · rename_i hread
    rcases hop with hop | ⟨-, hne⟩
    · exact htransfer true hop h
    · exact absurd (BitVec.eq_of_toNat_eq hread) hne
  · rename_i hwrite
    rcases hop with hop | ⟨hne, -⟩
    · exact htransfer false hop h
    · exact absurd (BitVec.eq_of_toNat_eq hwrite) hne
  · cases h
    rfl

theorem Fits.cells_end {segments : List Segment} {writeToHost : Bool} (h : Fits cmd)
    (hdescribed : Described env p dev cmd writeToHost segments) :
    cmd.offset.toNat + (cells p segments).length ≤ 2 ^ 30 := by
  rw [length_cells hdescribed]
  exact h.end_le.trans (by decide)

theorem disk_of_reachable (hbacked : Backed env p) {start : NvmeDevice} {s : Store}
    (hs : (blockStore env p start).Reachable s) :
    ∀ x < 2 ^ 30, disk s.dev x = storeAll (disk start) s.writes x := by
  induction hs with
  | init h =>
    subst h
    exact fun _ _ ↦ rfl
  | @step s t _ hstep ih =>
    cases hstep with
    | guest guest => exact ih
    | write hop hfits hdescribed h =>
      rw [execute_write hop] at h
      cases (nvmeIoTransfer_eq hbacked hfits.accepted hdescribed).2 _ _ h
      intro x hx
      rw [disk_moved_write env p s.dev (hfits.cells_end hdescribed) hx, storeAll_append,
        hfits.offset_eq]
      change store _ _ _ _ = store _ _ _ _
      unfold store
      rw [ih x hx]
    | read hop hfits hdescribed h =>
      rw [execute_read hop] at h
      cases (nvmeIoTransfer_eq hbacked hfits.accepted hdescribed).2 _ _ h
      rw [moved_read]
      exact ih
    | other hop h =>
      cases execute_other hop h
      exact ih

/-- After any run of commands, a write whose blocks are on the disk returns with success, and a
read delivers of every byte what the last write to it has written there, to the places that its
PRP entries list, and changes nothing else. -/
theorem read_after_writes (env : Env) (p : Platform) (hbacked : Backed env p) (start : NvmeDevice)
    (s : Store) (hs : (blockStore env p start).Reachable s) (cmd : NvmeCommand)
    (segments : List Segment) (hfits : Fits cmd) :
    (cmd.opcode = 0x01 → Described env p s.dev cmd false segments →
      ∃ fuel dev, nvmeExecuteIoCommand env fuel s.dev cmd = some (nvmeSuccess, dev)) ∧
    (cmd.opcode = 0x02 → Described env p s.dev cmd true segments →
      (cells p segments).length = cmd.nlb.toNat * 4096 ∧
      ∃ fuel, nvmeExecuteIoCommand env fuel s.dev cmd = some (nvmeSuccess, { s.dev with
        guest := scatter s.dev.guest ((cells p segments).zip
          ((List.range (cells p segments).length).map fun k ↦
            storeAll (disk start) s.writes (cmd.slba.toNat * 4096 + k))) })) := by
  constructor
  · intro hop hdescribed
    obtain ⟨⟨fuel, hreturns⟩, -⟩ := nvmeIoTransfer_eq hbacked hfits.accepted hdescribed
    exact ⟨fuel, _, (execute_write hop).trans hreturns⟩
  · intro hop hdescribed
    obtain ⟨⟨fuel, hreturns⟩, -⟩ := nvmeIoTransfer_eq hbacked hfits.accepted hdescribed
    refine ⟨length_cells hdescribed, fuel, ?_⟩
    rw [execute_read hop, hreturns, moved_read, hfits.offset_eq]
    have hbytes : (List.range (cells p segments).length).map
        (fun k ↦ disk s.dev (cmd.slba.toNat * 4096 + k)) =
        (List.range (cells p segments).length).map
          fun k ↦ storeAll (disk start) s.writes (cmd.slba.toNat * 4096 + k) := by
      refine List.map_congr_left fun k hk ↦ disk_of_reachable hbacked hs _ ?_
      have hend := hfits.cells_end hdescribed
      have hlt := List.mem_range.mp hk
      rw [hfits.offset_eq] at hend
      omega
    rw [hbytes]

section Example

/-- The command on block 3 with its bytes in one page. -/
def onBlock (opcode : BitVec 8) (page : BitVec 64) : NvmeCommand := ⟨opcode, 0, 1, page, 0, 3, 0, 0⟩

theorem backed_serving : Backed serving direct where
  registered := rfl
  function := rfl
  buffer := ⟨_, rfl⟩
  allocated := rfl
  copies _ _ := rfl

theorem fits_onBlock (opcode : BitVec 8) (page : BitVec 64) : Fits (onBlock opcode page) := by
  unfold Fits NvmeCommand.slba NvmeCommand.nlb onBlock
  dsimp only
  decide

theorem described_page (dev : NvmeDevice) (b : Bool) (cmd : NvmeCommand)
    (hpage : cmd.prp1 = 0x2000 ∨ cmd.prp1 = 0x5000) (hblocks : cmd.cdw12 = 0) :
    Described serving direct dev cmd b [(cmd.prp1, 4096)] := by
  have hlen : (cmd.len.setWidth 32).toNat = 4096 := by
    rw [toNat_len]
    unfold NvmeCommand.nlb
    rw [hblocks]
    decide
  have hone : PrpSegments direct dev.guest (callOf serving dev cmd b).req
      [(cmd.prp1, (cmd.len.setWidth 32).toNat)] [] := by
    apply PrpSegments.one
    change (cmd.len.setWidth 32).toNat ≤ tail 4096 cmd.prp1
    rw [hlen]
    rcases hpage with hpage | hpage
    all_goals
      rw [hpage]
      decide
  rw [hlen] at hone
  refine ⟨⟨[], hone, ?_, ?_⟩, ?_⟩
  · intro list hlist
    cases hlist
  · intro _ _ _ list hlist
    cases hlist
  · intro segment hsegment
    cases List.mem_singleton.mp hsegment
    rcases hpage with hpage | hpage
    all_goals
      rw [hpage]
      exact accessible_direct (by decide) (by decide)

theorem read_after_writes_block : ∃ s, (blockStore serving direct rung).Reachable s ∧
    s.writes = [(3 * 4096, List.replicate 4096 7)] ∧
    ∃ fuel, nvmeExecuteIoCommand serving fuel s.dev (onBlock 0x02 0x5000) =
      some (nvmeSuccess, { s.dev with
        guest := scatter s.dev.guest ((cells direct [(0x5000, 4096)]).zip
          ((List.range (cells direct [(0x5000, 4096)]).length).map fun k ↦
            storeAll (disk rung) s.writes (3 * 4096 + k))) }) := by
  -- The guest fills its memory with 7, writes a page of it to the block, and clears its memory.
  have hinit : (blockStore serving direct rung).Reachable ⟨rung, []⟩ := .init rfl
  have hfilled := hinit.step (Step.guest fun _ ↦ 7)
  have hwrite := described_page { rung with guest := fun _ ↦ 7 } false
    (onBlock 0x01 0x2000) (.inl rfl) rfl
  obtain ⟨fuel, dev, hreturns⟩ := (read_after_writes serving direct backed_serving rung _ hfilled
    (onBlock 0x01 0x2000) _ (fits_onBlock _ _)).1 rfl hwrite
  have hwritten := (hfilled.step (Step.write rfl (fits_onBlock _ _) hwrite hreturns)).step
    (Step.guest fun _ ↦ 0)
  have hbytes : (cells direct [(0x2000, 4096)]).map (fun _ ↦ (7 : BitVec 8)) =
      List.replicate 4096 7 := by
    rw [List.map_const']
    exact congrArg (List.replicate · 7) (length_cells hwrite)
  refine ⟨_, hwritten, ?_, ?_⟩
  · change [(3 * 4096, (cells direct [(0x2000, 4096)]).map fun _ ↦ (7 : BitVec 8))] = _
    rw [hbytes]
  · exact ((read_after_writes serving direct backed_serving rung _ hwritten (onBlock 0x02 0x5000)
      [(0x5000, 4096)] (fits_onBlock _ _)).2 rfl (described_page _ true _ (.inr rfl) rfl)).2

end Example

end Store

section Confinement

variable {env : Env} {p : Platform} {dev : NvmeDevice} {cmd : NvmeCommand}
  {segments : List Segment}

/-- The address is none of the disk's. -/
def OffDisk (dev : NvmeDevice) (a : BitVec 64) : Prop :=
  ∀ x < nvmeDiskSize.toNat, a ≠ dev.diskData + BitVec.ofNat 64 x

/-- The command changes no byte of the process but those of the disk. -/
def StaysOnDisk (env : Env) (dev : NvmeDevice) (cmd : NvmeCommand) : Prop :=
  ∀ user fuel status dev',
    nvmeExecuteIoCommand env fuel { dev with user } cmd = some (status, dev') →
      ∀ a, OffDisk dev a → dev'.user a = user a

/-- No other byte of the process tells in the memory of the guest or in the status. -/
def DeliversDisk (env : Env) (dev : NvmeDevice) (cmd : NvmeCommand) : Prop :=
  ∀ user user' fuel fuel' status status' dev₁ dev₂,
    (∀ x < nvmeDiskSize.toNat, user (dev.diskData + BitVec.ofNat 64 x) =
      user' (dev.diskData + BitVec.ofNat 64 x)) →
    nvmeExecuteIoCommand env fuel { dev with user } cmd = some (status, dev₁) →
    nvmeExecuteIoCommand env fuel' { dev with user := user' } cmd = some (status', dev₂) →
      status = status' ∧ dev₁.guest = dev₂.guest

/-- What the check of the first block leaves: the command is refused, or all of its blocks are on
the disk. -/
def Confined (cmd : NvmeCommand) : Prop :=
  2 ^ 18 ≤ cmd.slba.toNat % 2 ^ 52 ∨ cmd.slba.toNat % 2 ^ 52 + cmd.nlb.toNat ≤ 2 ^ 18

theorem refused_iff (cmd : NvmeCommand) :
    cmd.offset ≥ nvmeDiskSize ↔ 2 ^ 18 ≤ cmd.slba.toNat % 2 ^ 52 := by
  rw [ge_iff_le, BitVec.le_def, toNat_offset, toNat_nvmeDiskSize]
  omega

theorem offDisk_iff (dev : NvmeDevice) {x : ℕ} (hx : x < 2 ^ 64) :
    OffDisk dev (dev.diskData + BitVec.ofNat 64 x) ↔ nvmeDiskSize.toNat ≤ x := by
  have hsize := toNat_nvmeDiskSize
  constructor
  · intro h
    by_contra hlt
    exact h x (Nat.not_le.mp hlt) rfl
  · intro h y hy heq
    have hsame := congrArg BitVec.toNat ((BitVec.add_right_inj _).mp heq)
    rw [BitVec.toNat_ofNat, BitVec.toNat_ofNat] at hsame
    omega

theorem described_user {b : Bool} (h : Described env p dev cmd b segments) (user : UserMemory) :
    Described env p { dev with user } cmd b segments :=
  ⟨h.lists, h.accessible⟩

/-- The bytes of a transfer that is neither refused nor whole on the disk go on behind it. -/
theorem exists_offDisk (hlength : (cells p segments).length = cmd.nlb.toNat * 4096)
    (h : ¬ Confined cmd) : ¬ cmd.offset ≥ nvmeDiskSize ∧
      0 < (cells p segments).length ∧
      nvmeDiskSize.toNat ≤ cmd.offset.toNat + ((cells p segments).length - 1) ∧
      cmd.offset.toNat + (cells p segments).length ≤ 2 ^ 31 := by
  have hnlb := toNat_nlb cmd
  unfold Confined at h
  rw [refused_iff, toNat_offset, toNat_nvmeDiskSize, hlength]
  omega

/-- The framework is handed a buffer that is on the disk. -/
theorem exists_of_inWindow (hconfined : Confined cmd) (haccepted : ¬ cmd.offset ≥ nvmeDiskSize)
    {writeToHost : Bool} {a : BitVec 64} (h : InWindow (callOf env dev cmd writeToHost).req a) :
    ∃ x < nvmeDiskSize.toNat, a = dev.diskData + BitVec.ofNat 64 x := by
  obtain ⟨x, hx, heq⟩ := h
  have hfits := hconfined.resolve_left fun hrefused ↦ haccepted ((refused_iff cmd).mpr hrefused)
  have hlen : x < cmd.nlb.toNat * 4096 := toNat_len cmd ▸ hx
  refine ⟨cmd.offset.toNat + x, ?_, heq.trans (diskData_add dev cmd x)⟩
  rw [toNat_offset, toNat_nvmeDiskSize]
  omega

theorem exists_call {fuel : ℕ} {status : BitVec 32} {dev' : NvmeDevice} {writeToHost : Bool}
    (haccepted : ¬ cmd.offset ≥ nvmeDiskSize)
    (h : nvmeIoTransfer env fuel dev cmd writeToHost = some (status, dev')) :
    ∃ r, pciemIoctlDmaIndirect (callOf env dev cmd writeToHost)
        ⟨dev.guest, dev.user, env.listBuf, env.dataBuf, 0, 0, 0, 0, 0, 0⟩ fuel = some r ∧
      status = (if r.1 = .ok () then nvmeSuccess else nvmeInternal) ∧ dev'.guest = r.2.1 ∧
        dev'.user = r.2.2 := by
  unfold nvmeIoTransfer nvmeDmaRw at h
  rw [if_neg haccepted] at h
  obtain ⟨q, hq, hanswered⟩ := Option.map_eq_some_iff.mp h
  obtain ⟨⟨ret, guest, user⟩, hr, rfl⟩ := Option.map_eq_some_iff.mp hq
  refine ⟨_, hr, ?_⟩
  cases ret with
  | ok _ =>
    cases hanswered
    exact ⟨rfl, rfl, rfl⟩
  | error e =>
    cases hanswered
    exact ⟨rfl, rfl, rfl⟩

/-- A command either moves nothing or asks the framework for its transfer. -/
theorem execute_cases (env : Env) (cmd : NvmeCommand) :
    (∃ status, ∀ fuel dev, nvmeExecuteIoCommand env fuel dev cmd = some (status, dev)) ∨
      ¬ cmd.offset ≥ nvmeDiskSize ∧ ∃ writeToHost, ∀ fuel dev,
        nvmeExecuteIoCommand env fuel dev cmd = nvmeIoTransfer env fuel dev cmd writeToHost := by
  have htransfer (writeToHost : Bool) :
      (∃ status, ∀ fuel dev,
        nvmeIoTransfer env fuel dev cmd writeToHost = some (status, dev)) ∨
      ¬ cmd.offset ≥ nvmeDiskSize ∧ ∃ b, ∀ fuel dev,
        nvmeIoTransfer env fuel dev cmd writeToHost = nvmeIoTransfer env fuel dev cmd b := by
    by_cases haccepted : cmd.offset ≥ nvmeDiskSize
    · refine .inl ⟨nvmeInvalidField, fun fuel dev ↦ ?_⟩
      unfold nvmeIoTransfer
      rw [if_pos haccepted]
    · exact .inr ⟨haccepted, writeToHost, fun _ _ ↦ rfl⟩
  unfold nvmeExecuteIoCommand
  split
  · exact .inl ⟨_, fun _ _ ↦ rfl⟩
  · exact htransfer true
  · exact htransfer false
  · exact .inl ⟨_, fun _ _ ↦ rfl⟩

/-- A command that is confined is so however its transfer goes. -/
theorem stays_of_confined (hconfined : Confined cmd) : StaysOnDisk env dev cmd := by
  intro user fuel status dev' h a ha
  obtain ⟨status', hnone⟩ | ⟨haccepted, writeToHost, htransfer⟩ := execute_cases env cmd
  · rw [hnone] at h
    cases h
    rfl
  · rw [htransfer] at h
    obtain ⟨r, hr, -, -, huser⟩ := exists_call haccepted h
    rw [huser]
    refine (indirect_window _ hr).1 a fun hwindow ↦ ?_
    obtain ⟨x, hx, heq⟩ := exists_of_inWindow hconfined haccepted hwindow
    exact ha x hx heq

theorem delivers_of_confined (hconfined : Confined cmd) : DeliversDisk env dev cmd := by
  intro user user' fuel fuel' status status' dev₁ dev₂ hagree h h'
  obtain ⟨status₀, hnone⟩ | ⟨haccepted, writeToHost, htransfer⟩ := execute_cases env cmd
  · rw [hnone] at h h'
    cases h
    cases h'
    exact ⟨rfl, rfl⟩
  · rw [htransfer] at h h'
    obtain ⟨r, hr, hstatus, hguest, -⟩ := exists_call haccepted h
    obtain ⟨r', hr', hstatus', hguest', -⟩ := exists_call haccepted h'
    have hwindow : ∀ a, InWindow (callOf env { dev with user } cmd writeToHost).req a →
        user' a = user a := by
      intro a ha
      obtain ⟨x, hx, rfl⟩ := exists_of_inWindow hconfined haccepted ha
      exact (hagree x hx).symm
    obtain ⟨r'', hr'', hret, hsame⟩ := (indirect_window _ hr).2 user' hwindow
    rw [indirect_unique hr' hr''] at hstatus' hguest'
    rw [hstatus, hstatus', hguest, hguest', hret, hsame]
    exact ⟨rfl, rfl⟩

theorem confined_of_stays (hbacked : Backed env p) (hop : cmd.opcode = 0x01)
    (hdescribed : Described env p dev cmd false segments) (h : StaysOnDisk env dev cmd) :
    Confined cmd := by
  have hlength := length_cells hdescribed
  by_contra hnot
  obtain ⟨haccepted, hpos, hout, hend⟩ := exists_offDisk hlength hnot
  obtain ⟨k, hk⟩ : ∃ k, k = (cells p segments).length - 1 := ⟨_, rfl⟩
  have hklt : k < (cells p segments).length := by omega
  -- The process has another byte where the last one of the transfer goes.
  have hreturns (user : UserMemory) :=
    (nvmeIoTransfer_eq hbacked haccepted (described_user hdescribed user)).1
  obtain ⟨fuel, hreturn⟩ := hreturns fun _ ↦ ((cells p segments).map dev.guest).getD k 0 + 1
  have hchanged := h _ fuel _ _ ((execute_write hop).trans hreturn)
    (dev.diskData + BitVec.ofNat 64 (cmd.offset.toNat + k))
    ((offDisk_iff dev (by omega)).mpr (hk ▸ hout))
  rw [moved_write_user] at hchanged
  have hinj : ∀ a < (cells p segments).length, ∀ b < (cells p segments).length,
      dev.diskData + BitVec.ofNat 64 (cmd.offset.toNat + a) =
        dev.diskData + BitVec.ofNat 64 (cmd.offset.toNat + b) → a = b := by
    intro a ha b hb hab
    have hsame := congrArg BitVec.toNat ((BitVec.add_right_inj _).mp hab)
    rw [BitVec.toNat_ofNat, BitVec.toNat_ofNat] at hsame
    omega
  have hne := (scatter_range_of_injOn hinj hklt).symm.trans hchanged
  generalize ((cells p segments).map dev.guest).getD k 0 = b at hne
  bv_omega

theorem confined_of_delivers (hbacked : Backed env p) (hop : cmd.opcode = 0x02)
    (hdescribed : Described env p dev cmd true segments) (h : DeliversDisk env dev cmd) :
    Confined cmd := by
  have hlength := length_cells hdescribed
  by_contra hnot
  obtain ⟨haccepted, hpos, hout, hend⟩ := exists_offDisk hlength hnot
  obtain ⟨k, hk⟩ : ∃ k, k = (cells p segments).length - 1 := ⟨_, rfl⟩
  have hklt : k < (cells p segments).length := by omega
  have hreturns (user : UserMemory) :=
    (nvmeIoTransfer_eq hbacked haccepted (described_user hdescribed user)).1
  -- Two processes whose memories differ in the last byte of the transfer.
  obtain ⟨other, hother⟩ : ∃ other : UserMemory, other = Function.update (fun _ ↦ 0)
    (dev.diskData + BitVec.ofNat 64 (cmd.offset.toNat + k)) 1 := ⟨_, rfl⟩
  obtain ⟨fuel, hreturn⟩ := hreturns fun _ ↦ 0
  obtain ⟨fuel', hreturn'⟩ := hreturns other
  have hoff := (offDisk_iff dev (by omega)).mpr (hk ▸ hout)
  obtain ⟨-, hsame⟩ := h (fun _ ↦ 0) other fuel fuel' _ _ _ _
    (fun x hx ↦ by rw [hother, Function.update_of_ne (hoff x hx).symm])
    ((execute_read hop).trans hreturn) ((execute_read hop).trans hreturn')
  rw [moved_read, moved_read] at hsame
  have hlast (user : UserMemory) : scatter dev.guest ((cells p segments).zip
      ((List.range (cells p segments).length).map fun k ↦
        disk { dev with user } (cmd.offset.toNat + k))) ((cells p segments)[k]) =
      disk { dev with user } (cmd.offset.toNat + k) := by
    refine (scatter_zip_last (by omega) ?_).trans ?_
    · rw [List.length_map, List.length_range]
      omega
    · rw [List.getElem_map, List.getElem_range]
  have hbyte := congrFun hsame ((cells p segments)[k])
  dsimp only at hbyte
  rw [hlast, hlast] at hbyte
  have hone : other (dev.diskData + BitVec.ofNat 64 (cmd.offset.toNat + k)) = 1 := by
    rw [hother, Function.update_self]
  have hzero : (0 : BitVec 8) = 1 := hbyte.trans hone
  cases hzero

/-- The card checks the first block of a command only, and counts blocks modulo 2^52. Where the
command is refused, or its last block is on the disk too, it changes no byte of the process but
those of the disk, and nothing tells of another byte; and only there, where its transfer can be
made. -/
theorem disk_confined_iff (env : Env) (dev : NvmeDevice) (cmd : NvmeCommand) :
    (Confined cmd → StaysOnDisk env dev cmd ∧ DeliversDisk env dev cmd) ∧
    ∀ p segments, Backed env p →
      (cmd.opcode = 0x01 → Described env p dev cmd false segments →
        (StaysOnDisk env dev cmd ↔ Confined cmd)) ∧
      (cmd.opcode = 0x02 → Described env p dev cmd true segments →
        (DeliversDisk env dev cmd ↔ Confined cmd)) :=
  ⟨fun hconfined ↦ ⟨stays_of_confined hconfined, delivers_of_confined hconfined⟩,
    fun _ _ hbacked ↦
      ⟨fun hop hdescribed ↦ ⟨confined_of_stays hbacked hop hdescribed, stays_of_confined⟩,
        fun hop hdescribed ↦
          ⟨confined_of_delivers hbacked hop hdescribed, delivers_of_confined⟩⟩⟩

section Example

/-- The command on the last block of the disk and the one behind it. -/
def beyond (opcode : BitVec 8) : NvmeCommand := ⟨opcode, 0, 1, 0x2000, 0x5000, 0x3FFFF, 0, 1⟩

theorem described_beyond (opcode : BitVec 8) (b : Bool) :
    Described serving direct rung (beyond opcode) b [(0x2000, 4096), (0x5000, 4096)] := by
  have hlength : (callOf serving rung (beyond opcode) b).req.length.toNat =
      tail 4096 0x2000 + 4096 := by
    refine (toNat_len (beyond opcode)).trans ?_
    unfold NvmeCommand.nlb beyond
    dsimp only
    decide
  have htwo : PrpSegments direct rung.guest (callOf serving rung (beyond opcode) b).req
      [((beyond opcode).prp1, tail 4096 0x2000), ((beyond opcode).prp2, 4096)] [] :=
    PrpSegments.two 4096 (by decide) (by change 4096 ≤ 4096; decide) hlength
  refine ⟨⟨[], htwo, ?_, ?_⟩, ?_⟩
  · intro list hlist
    cases hlist
  · intro _ _ _ list hlist
    cases hlist
  · intro segment hsegment
    rcases List.mem_cons.mp hsegment with rfl | hsegment
    · exact accessible_direct (by decide) (by decide)
    · cases List.mem_singleton.mp hsegment
      exact accessible_direct (by decide) (by decide)

theorem disk_confined_iff_beyond : ¬ StaysOnDisk serving rung (beyond 0x01) ∧
    ¬ DeliversDisk serving rung (beyond 0x02) := by
  have hnot (opcode : BitVec 8) : ¬ Confined (beyond opcode) := by
    unfold Confined NvmeCommand.slba NvmeCommand.nlb beyond
    dsimp only
    decide
  obtain ⟨hwrite, hread⟩ := (disk_confined_iff serving rung (beyond 0x01)).2 direct _ backed_serving
  have hstays := hwrite rfl (described_beyond _ _)
  have hdelivers := ((disk_confined_iff serving rung (beyond 0x02)).2 direct _ backed_serving).2 rfl
    (described_beyond _ _)
  exact ⟨fun h ↦ hnot _ (hstays.mp h), fun h ↦ hnot _ (hdelivers.mp h)⟩

end Example

end Confinement

end Pciem.Nvme.Disk
