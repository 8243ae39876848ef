import Pciem.Config.Effects
import Mathlib.Data.List.Induction

namespace Pciem.Config.TypedRegisters

open Kernel Library.ByteMemory Capabilities Layout Registers Access Effects

/-- What a register keeps of a value written to it. -/
def kept (cap : PciemCap) (value : BitVec 32) : CapRegister → BitVec 32
  | .msiControl | .msiData => value &&& 0xFFFF
  | .msiAddressLo | .msiAddressHi | .msiMask => value
  | .msixControl => (value &&& 0xC000) |||
      match cap with
      | .msix config _ => ((config.tableSize - 1) &&& 0x7FF).setWidth 32
      | _ => 0
  | .pmControl => value &&& 0x8103
  | .pasidControl => value &&& 0x7

def lastWrite (ws : List ConfWrite) (p size : ℕ) : Option (BitVec 32) :=
  (ws.reverse.find? fun w ↦ w.pos = p ∧ w.size = size).map (·.value)

/-- The low bits of an MSI-X control word tell the size of the table. -/
def Sized : PciemCap → Prop
  | .msix config state => state.control &&& 0x07FF = (config.tableSize - 1) &&& 0x7FF
  | _ => True

theorem sized_of_initial {cap : PciemCap} (h : cap.Initial) : Sized cap := by
  cases cap with
  | msix config state =>
    rw [PciemCap.Initial] at h
    rw [Sized, h, BitVec.and_assoc]
    rfl
  | msi | pm | pcie | vsec | pasid => trivial

theorem sized_of_added {v : PciemRootComplex} (hv : Added v) {mgr : PciemCapManager}
    (hm : v.capMgr = some mgr) : ∀ entry ∈ mgr.caps, Sized entry.cap := by
  refine hv.invariant (I := fun mgr ↦ ∀ entry ∈ mgr.caps, Sized entry.cap) ?_ ?_ hm
  · simp [PciemCapManager.empty]
  · intro mgr hl cap hi h entry he
    rcases List.mem_append.mp he with he | he
    · exact h entry he
    · rw [List.mem_singleton.mp he]
      exact sized_of_initial hi

section Latch

variable {cap : PciemCap} {value : BitVec 32} {reg : CapRegister} {o : ℕ}

theorem latch_eq_kept (h : Sized cap) (hreg : (o, reg) ∈ registers cap) :
    latch cap value reg = kept cap value reg := by
  cases reg with
  | msiControl | msiData | msiAddressLo | msiAddressHi | msiMask | pmControl | pasidControl => rfl
  | msixControl =>
    cases cap with
    | msix config state =>
      have hlow : typed (.msix config state) .msixControl &&& 0x07FF =
          (state.control &&& 0x07FF).setWidth 32 := by
        rw [BitVec.setWidth_and]
        rfl
      rw [Sized] at h
      rw [latch, hlow, h, kept, BitVec.or_comm]
    | msi config state =>
      obtain ⟨has64bit, hasPerVectorMasking, numVectorsLog2⟩ := config
      cases has64bit <;> simp [registers] at hreg
    | pm | pasid => simp [registers] at hreg
    | pcie | vsec => cases hreg

theorem Sized.setTyped (h : Sized cap) : Sized (setTyped (latch cap value reg) cap reg) := by
  cases cap with
  | msix config state =>
    cases reg with
    | msixControl =>
      have hbits : (latch (.msix config state) value .msixControl).setWidth 16 &&& 0x07FF =
          state.control &&& 0x07FF := by
        have hhigh : (value &&& 0xC000).setWidth 16 &&& 0x07FF = 0 := by
          rw [BitVec.setWidth_and, BitVec.and_assoc]
          exact BitVec.and_zero
        rw [latch_msixControl, BitVec.and_or_distrib_right, hhigh, BitVec.and_assoc]
        exact BitVec.or_zero
      exact hbits.trans h
    | msiControl | msiData | msiAddressLo | msiAddressHi | msiMask | pmControl | pasidControl =>
      exact h
  | msi => cases reg <;> trivial
  | pm => cases reg <;> trivial
  | pasid => cases reg <;> trivial
  | pcie => cases reg <;> trivial
  | vsec => cases reg <;> trivial

theorem kept_of_skeleton {cap' : PciemCap} (h : skeleton cap' = skeleton cap) :
    kept cap' value reg = kept cap value reg := by
  have hcap (c : PciemCap) : kept (skeleton c) value reg = kept c value reg := by
    cases c <;> cases reg <;> rfl
  rw [← hcap cap', h, hcap]

end Latch

def Holding (entry : PciemCapEntry) (reg : CapRegister) (value : BitVec 32)
    (v : PciemRootComplex) : Prop :=
  v.detaching = false ∧ ∃ mgr, v.capMgr = some mgr ∧ Separate mgr ∧
    ∃ i : Fin mgr.caps.length, frame (mgr.caps.get i) = frame entry ∧ Sized (mgr.caps.get i).cap ∧
      typed (mgr.caps.get i).cap reg = value

section Step

variable {entry : PciemCapEntry} {reg : CapRegister} {value : BitVec 32} {v : PciemRootComplex}
  {o : ℕ}

theorem Holding.hit (h : Holding entry reg value v) (hreg : (o, reg) ∈ registers entry.cap)
    (hsize : o + reg.width ≤ entry.size.toNat) {w : ConfWrite} (hpos : w.pos = entry.base + o)
    (hw : w.size = reg.width) :
    Holding entry reg (kept entry.cap w.value reg) (applyWrite v w) := by
  obtain ⟨hd, mgr, hm, hsep, i, hframe, hsized, -⟩ := h
  have hbase := base_of_frame hframe
  have hfin : fin (mgr.caps.get i) = entry.base + entry.size.toNat := fin_of_frame hframe
  have hwidth : 0 < reg.width := by cases reg <;> decide
  have hi : (o, reg) ∈ registers (mgr.caps.get i).cap := registers_of_frame hframe ▸ hreg
  have hc : covering mgr w.pos = some i := covering_eq hsep.disjoint (by omega) (by omega)
  have hin : InSpace w.pos w.size :=
    inSpace_of_separate hsep (List.get_mem _ i) (by omega) (by omega) (by omega)
  rw [applyWrite_register hd hin hm (based_of_separate hsep) hc (by omega) hi hw]
  refine ⟨hd, _, rfl, separate_congr hsep (frame_setCap mgr i _ reg),
    i.cast length_setCap.symm, ?_⟩
  rw [get_setCap_self]
  refine ⟨(frame_setTyped _ _ _).trans hframe, hsized.setTyped, ?_⟩
  rw [typed_setTyped hi, latch_eq_kept hsized hi]
  exact kept_of_skeleton (congrArg PciemCapEntry.cap hframe)

theorem Holding.miss (h : Holding entry reg value v) (hreg : (o, reg) ∈ registers entry.cap)
    {w : ConfWrite} (hmiss : ¬ (w.pos = entry.base + o ∧ w.size = reg.width)) :
    Holding entry reg value (applyWrite v w) := by
  obtain ⟨hd, mgr, hm, hsep, i, hframe, hsized, hval⟩ := h
  have hbase := base_of_frame hframe
  have hi : (o, reg) ∈ registers (mgr.caps.get i).cap := registers_of_frame hframe ▸ hreg
  have heffect : WriteEffect v w (applyWrite v w) := by
    refine applyWrite_effect fun m hm' ↦ ?_
    cases hm.symm.trans hm'
    exact based_of_separate hsep
  refine ⟨heffect.detaching_eq.trans hd, ?_⟩
  generalize applyWrite v w = v' at heffect ⊢
  cases heffect with
  | ignored | bar | raw => exact ⟨mgr, hm, hsep, i, hframe, hsized, hval⟩
  | @register mgr' j o' reg' hm' hc hpos hreg' hsize' =>
    cases hm.symm.trans hm'
    refine ⟨_, rfl, separate_congr hsep (frame_setCap mgr j _ reg'),
      i.cast length_setCap.symm, ?_⟩
    rcases eq_or_ne i j with rfl | hij
    · have hne : reg ≠ reg' := by
        rintro rfl
        have ho : o' = o := congrArg Prod.fst (registers_inj hreg' hi (.inr rfl))
        exact hmiss ⟨by omega, hsize'⟩
      rw [get_setCap_self]
      exact ⟨(frame_setTyped _ _ _).trans hframe, hsized.setTyped,
        (typed_setTyped_of_ne hne).trans hval⟩
    · rw [get_setCap_of_ne hij]
      exact ⟨hframe, hsized, hval⟩

/-- A config write changes the typed copy of a register only if it is of exactly its place
and size. -/
theorem Holding.step (h : Holding entry reg value v) (hreg : (o, reg) ∈ registers entry.cap)
    (hsize : o + reg.width ≤ entry.size.toNat) (w : ConfWrite) :
    Holding entry reg (if w.pos = entry.base + o ∧ w.size = reg.width
      then kept entry.cap w.value reg else value) (applyWrite v w) := by
  by_cases hhit : w.pos = entry.base + o ∧ w.size = reg.width
  · rw [if_pos hhit]
    exact h.hit hreg hsize hhit.1 hhit.2
  · rw [if_neg hhit]
    exact h.miss hreg hhit

theorem Holding.read (h : Holding entry reg value v) (hreg : (o, reg) ∈ registers entry.cap)
    (hsize : o + reg.width ≤ entry.size.toNat) (hmask : reg ≠ .msiMask) :
    pciemConfReadImpl (some v) (entry.base + o : ℕ) reg.width = (.successful, value) := by
  obtain ⟨hd, mgr, hm, hsep, i, hframe, -, rfl⟩ := h
  have hwidth : 0 < reg.width := by cases reg <;> decide
  have hreads : reg.Reads reg.width := by
    cases reg with
    | msiMask => exact absurd rfl hmask
    | msiAddressLo | msiAddressHi | msiData => trivial
    | msiControl | msixControl | pmControl | pasidControl => rfl
  change confRead v (entry.base + o : ℕ) reg.width = _
  rw [← base_of_frame hframe]
  refine confRead_register hd hm hsep (registers_of_frame hframe ▸ hreg) hreads hwidth ?_
  rw [fin_of_frame hframe, base_of_frame hframe, fin]
  omega

theorem Holding.run (h : Holding entry reg value v) (hreg : (o, reg) ∈ registers entry.cap)
    (hsize : o + reg.width ≤ entry.size.toNat) (ws : List ConfWrite) :
    Holding entry reg ((lastWrite ws (entry.base + o) reg.width).elim value
      fun last ↦ kept entry.cap last reg) (ws.foldl applyWrite v) := by
  induction ws using List.reverseRecOn with
  | nil => exact h
  | append_singleton ws w ih =>
    have hstep := ih.step hreg hsize w
    rw [List.foldl_append]
    by_cases hhit : w.pos = entry.base + o ∧ w.size = reg.width
    · rw [if_pos hhit] at hstep
      simpa [lastWrite, hhit] using hstep
    · rw [if_neg hhit] at hstep
      simpa [lastWrite, hhit] using hstep

theorem Holding.table_size (h : Holding entry .msixControl value v)
    {config : PciemCapMsixConfig} {state : PciemMsixState} (hcap : entry.cap = .msix config state) :
    value &&& 0x07FF = ((config.tableSize - 1) &&& 0x7FF).setWidth 32 := by
  obtain ⟨-, mgr, -, -, i, hframe, hsized, rfl⟩ := h
  have hskel : skeleton (mgr.caps.get i).cap = skeleton entry.cap :=
    congrArg PciemCapEntry.cap hframe
  rw [hcap] at hskel
  cases hi : (mgr.caps.get i).cap with
  | msix config' state' =>
    rw [hi] at hskel hsized
    cases hskel
    rw [Sized] at hsized
    rw [← hsized, BitVec.setWidth_and]
    rfl
  | msi | pm | pcie | vsec | pasid =>
    rw [hi] at hskel
    cases hskel

end Step

/-- Whatever config writes are made to a function that is not detaching, a read of a typed
register with its own size returns the most recent write of exactly that place and size as
far as the register keeps it, or else the typed value it started with; and an MSI-X control
word always shows the size of the table. -/
theorem typed_register_reads_last_write {u v : PciemRootComplex} {mgr : PciemCapManager}
    (hadded : Added u) (hu : u.capMgr = some mgr) (hd : v.detaching = false)
    (hm : v.capMgr = some mgr) (hsep : Separate mgr) {entry : PciemCapEntry}
    (he : entry ∈ mgr.caps) {o : ℕ} {reg : CapRegister} (hreg : (o, reg) ∈ registers entry.cap)
    (hmask : reg ≠ .msiMask) (ws : List ConfWrite) :
    pciemConfReadImpl (some (ws.foldl applyWrite v)) (entry.base + o : ℕ) reg.width =
      (.successful, (lastWrite ws (entry.base + o) reg.width).elim (typed entry.cap reg)
        fun last ↦ kept entry.cap last reg) ∧
    ∀ config state, entry.cap = .msix config state →
      (pciemConfReadImpl (some (ws.foldl applyWrite v)) (entry.base + o : ℕ) reg.width).2 &&&
        0x07FF = ((config.tableSize - 1) &&& 0x7FF).setWidth 32 := by
  have hlaid := Laid.of_added hadded hu
  have hsize : o + reg.width ≤ entry.size.toNat := by
    rw [hlaid.size entry he]
    exact (register_inside hreg (register_lt_size hreg hmask)).1
  obtain ⟨i, hei⟩ := List.get_of_mem he
  have hstart : Holding entry reg (typed entry.cap reg) v := by
    refine ⟨hd, mgr, hm, hsep, i, ?_⟩
    rw [hei]
    exact ⟨rfl, sized_of_added hadded hu entry he, rfl⟩
  have hrun := hstart.run hreg hsize ws
  have hread := hrun.read hreg hsize hmask
  refine ⟨hread, fun config state hcap ↦ ?_⟩
  rw [hread]
  rw [hcap] at hreg
  cases List.mem_singleton.mp hreg
  exact hrun.table_size hcap

theorem typed_register_reads_last_write_msi_data : ∃ v,
    addCapabilities created threeRequests = .ok v ∧
      pciemConfReadImpl (some ([⟨0x88, 2, 0x1BEEF⟩, ⟨0x88, 4, 0x1234⟩, ⟨0x84, 4, 0xFEE00000⟩,
        ⟨0x7E, 2, 0x81⟩].foldl applyWrite v)) 0x88 2 = (.successful, 0xBEEF) := by
  have h : addCapabilities created threeRequests = .ok _ := rfl
  have hadded := added_of_requests rfl h
  have hsep := (validLayout_of_fits rfl h rfl (by decide)).separate
  exact ⟨_, h, (typed_register_reads_last_write hadded rfl rfl rfl hsep
    (List.mem_of_getElem? (i := 2) rfl) (show (12, CapRegister.msiData) ∈ _ by decide)
    (by decide) _).1⟩

end Pciem.Config.TypedRegisters
