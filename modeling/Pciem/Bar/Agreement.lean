import Pciem.Bar.Scan
import Pciem.Device.Setup

namespace Pciem.Bar.Agreement

open Kernel Config.Capabilities Config.Registers Config.Access Config.Build
  Library.MaskedRegister Library.PowerOfTwo Registers Sizing Table Placement Probe Register
  Decode Scan Device.Setup

structure PciemBarInfoQuery where
  physAddr : BitVec 64
  size : BitVec 64
  flags : BitVec 32
  deriving DecidableEq

/-- GET_BAR_INFO on the function that the query selects. -/
def pciemIoctlGetBarInfo (f : PlacedFunction) (barIndex : ℕ) : Except Errno PciemBarInfoQuery :=
  if barIndex ≥ pciStdNumBars then
    .error .einval
  else if (f.rc.bars barIndex).size = 0 then
    .error .enoent
  else
    .ok ⟨(f.places barIndex).physAddr, (f.rc.bars barIndex).size, (f.rc.bars barIndex).flags⟩

/-- The page frame that a mapping of a BAR of the function begins at. -/
def pciemInstanceMmap (pageShift : ℕ) (f : PlacedFunction) (barIndex : ℕ) :
    Except Errno (BitVec 64) :=
  if barIndex ≥ pciStdNumBars then
    .error .einval
  else if (f.rc.bars barIndex).size = 0 ∨ (f.places barIndex).physAddr = 0 then
    .error .einval
  else
    .ok ((f.places barIndex).physAddr >>> pageShift)

/-- A function that no config access has reached. -/
structure Fresh (v : PciemRootComplex) : Prop where
  detaching : v.detaching = false
  initial : ∀ mgr, v.capMgr = some mgr → ∀ entry ∈ mgr.caps, entry.cap.Initial

/-- What the register after a BAR with two dwords reads. -/
def upperRead (restored : Bool) (sizes : ℕ → Bool) (f : PlacedFunction) (i : ℕ) : BitVec 32 :=
  match pciemHandleCapRead f.rc (barPos (i + 1)) 4, barRegister f.rc (i + 1) with
  | none, some r =>
    r.read (held (normalises restored sizes f.rc (i + 1)) r (upperBase restored f i))
  | _, _ => 0

/-- The dwords of a BAR can show the address that the pool has given it. -/
structure Shows (restored : Bool) (sizes : ℕ → Bool) (f : PlacedFunction) (i : ℕ) : Prop where
  readable : pciemHandleCapRead f.rc (barPos i) 4 = none
  low : LowAgrees (normalises restored sizes f.rc i) (f.rc.bars i) (f.places i).carvedStart
  high : (if Is64 (f.rc.bars i).flags ∧ i + 1 < pciStdNumBars then upperRead restored sizes f i
    else 0) = highDword (f.places i).carvedStart

/-- The address of a BAR in config space is the one that GET_BAR_INFO reports and that a
mapping begins at. -/
def AddressAgrees (pageShift : ℕ) (f : PlacedFunction) (i : ℕ) : Prop :=
  ∃ query, pciemIoctlGetBarInfo f i = .ok query ∧ query.physAddr = (f.places i).physAddr ∧
    pciemInstanceMmap pageShift f i = .ok (query.physAddr >>> pageShift) ∧
    decodeBar f.rc i = query.physAddr

section Addresses

variable {restored : Bool} {sizes : ℕ → Bool} {f g : PlacedFunction} {i pageShift : ℕ}

theorem handleRead_initial {cap : PciemCap} (h : cap.Initial) {offset : ℕ} {val : BitVec 32}
    (hread : handleRead cap offset 4 = some val) : val = 0 := by
  cases cap with
  | msi config state =>
    obtain rfl : state = ⟨0, 0, 0, 0, 0⟩ := h
    rw [handleRead, handleMsiRead] at hread
    split_ifs at hread with hflags <;> cases hread
    · exact absurd hflags.2 (by decide)
    all_goals rfl
  | msix | pm | pasid =>
    rw [handleRead] at hread
    cases hread.symm.trans (if_neg fun h ↦ absurd h.2 (by decide))
  | pcie | vsec => cases hread

theorem Fresh.handleCapRead {v : PciemRootComplex} (h : Fresh v) {pos : ℤ} {val : BitVec 32}
    (hread : pciemHandleCapRead v pos 4 = some val) : val = 0 := by
  rw [pciemHandleCapRead] at hread
  split at hread
  · cases hread
  · rename_i mgr hmgr
    split at hread
    · cases hread
    · exact handleRead_initial (h.initial mgr hmgr _ (List.get_mem _ _)) hread

theorem Fresh.confRead_bar {v : PciemRootComplex} (hf : Fresh f.rc)
    (h : Settled restored sizes f g) (hv : v = g.rc) (hi : i < pciStdNumBars) {val : BitVec 32}
    (hcap : pciemHandleCapRead f.rc (barPos i) 4 = some val) : (confRead v (barPos i) 4).2 = 0 := by
  rw [hv, Registers.confRead_bar h.detaching hi, h.caps i hi, hcap]
  exact hf.handleCapRead hcap

/-- What the register after a BAR with two dwords reads in config space. -/
theorem confRead_high (h : Settled restored sizes f g) (hf : Fresh f.rc)
    (hexp : Exposed f.rc i) (htwo : TwoDwords f.rc i) :
    (confRead g.rc (barPos (i + 1)) 4).2 = upperRead restored sizes f i := by
  rw [upperRead]
  cases hcap : pciemHandleCapRead f.rc (barPos (i + 1)) 4 with
  | some val => exact hf.confRead_bar h rfl htwo.2 hcap
  | none =>
    rw [Registers.confRead_bar h.detaching htwo.2, h.caps _ htwo.2, hcap]
    cases hr : barRegister f.rc (i + 1) with
    | none =>
      dsimp only
      rw [pciemReadBarAddress_eq, h.registers, hr]
    | some r => exact h.high i hexp htwo hcap r hr

theorem decodeBar_eq_iff (h : Settled restored sizes f g) (hf : Fresh f.rc)
    (hi : i < pciStdNumBars) (hexp : Exposed f.rc i) :
    decodeBar g.rc i = (f.places i).carvedStart ↔ Shows restored sizes f i := by
  rw [decodeBar]
  cases hcap : pciemHandleCapRead f.rc (barPos i) 4 with
  | some val =>
    rw [hf.confRead_bar h rfl hi hcap]
    refine iff_of_false (fun hdecode ↦ (h.physAddr i hi hexp).1 ?_) fun hshows ↦ ?_
    · rw [← hdecode]
      rfl
    · exact absurd (hcap.symm.trans hshows.readable) nofun
  | none =>
    have hlow : (confRead g.rc (barPos i) 4).2 = pciemReadBarAddress g.rc i := by
      rw [Registers.confRead_bar h.detaching hi, h.caps i hi, hcap]
    have hhigh : (if Is64 (f.rc.bars i).flags then
          if i + 1 < pciStdNumBars then (confRead g.rc (barPos (i + 1)) 4).2 else 0
        else 0) = if Is64 (f.rc.bars i).flags ∧ i + 1 < pciStdNumBars then
          upperRead restored sizes f i else 0 := by
      by_cases h64 : Is64 (f.rc.bars i).flags
      · by_cases hlt : i + 1 < pciStdNumBars
        · rw [if_pos h64, if_pos hlt, if_pos ⟨h64, hlt⟩,
            confRead_high h hf hexp ⟨h64.2, hlt⟩]
        · rw [if_pos h64, if_neg hlt, if_neg fun h' ↦ hlt h'.2]
      · rw [if_neg h64, if_neg fun h' ↦ h64 h'.1]
    rw [hlow, h.low i hi hexp hcap, decode_iff, hhigh]
    exact ⟨fun ⟨hl, hh⟩ ↦ ⟨hcap, hl, hh⟩, fun h' ↦ ⟨h'.low, h'.high⟩⟩

/-- GET_BAR_INFO and a mapping always agree; config space agrees with them when it shows the
address of the pool. -/
theorem addressAgrees_iff (h : Settled restored sizes f g) (hf : Fresh f.rc)
    (hi : i < pciStdNumBars) (hexp : Exposed f.rc i) :
    AddressAgrees pageShift g i ↔ Shows restored sizes f i := by
  obtain ⟨hne, hphys⟩ := h.physAddr i hi hexp
  have hsize : (g.rc.bars i).size ≠ 0 := by
    rw [h.size]
    exact hexp.1
  have hinfo : pciemIoctlGetBarInfo g i =
      .ok ⟨(g.places i).physAddr, (g.rc.bars i).size, (g.rc.bars i).flags⟩ := by
    rw [pciemIoctlGetBarInfo, if_neg (Nat.not_le.mpr hi), if_neg hsize]
  have hmmap : pciemInstanceMmap pageShift g i = .ok ((g.places i).physAddr >>> pageShift) := by
    rw [pciemInstanceMmap, if_neg (Nat.not_le.mpr hi), if_neg]
    rw [hphys]
    exact not_or.mpr ⟨hsize, hne⟩
  rw [← decodeBar_eq_iff h hf hi hexp, AddressAgrees, hinfo, hmmap, hphys]
  constructor
  · rintro ⟨query, hquery, -, -, hdecode⟩
    cases hquery
    exact hdecode
  · intro hdecode
    exact ⟨_, rfl, rfl, rfl, hdecode⟩

theorem builtFunction_eq (slot : PciemSlot) (k : ℕ) (f : PlacedFunction) :
    ∃ space, builtFunction slot k f = { f with rc := { f.rc with space } } := by
  obtain ⟨space, hbuild⟩ := pciemBuildConfigSpace_eq f.rc
  rw [builtFunction, hbuild]
  dsimp only
  split_ifs
  · rw [pciemSetMultifunction]
    split_ifs
    · exact ⟨_, rfl⟩
    · exact ⟨_, rfl⟩
  · exact ⟨_, rfl⟩

/-- The config space has no part in whether a BAR can show its address. -/
theorem shows_space (space : Library.ByteMemory.Memory) :
    Shows restored sizes { f with rc := { f.rc with space } } i ↔ Shows restored sizes f i := by
  have hnormal (j : ℕ) : normalises restored sizes { f.rc with space } j =
      normalises restored sizes f.rc j :=
    congrArg (fun shadowed ↦ !restored && (sizes j && !shadowed)) (writeShadowed_congr rfl)
  have hupper : upperRead restored sizes { f with rc := { f.rc with space } } i =
      upperRead restored sizes f i := by
    rw [upperRead, upperRead, hnormal]
    rfl
  constructor
  · rintro ⟨hread, hlow, hhigh⟩
    rw [hnormal] at hlow
    rw [hupper] at hhigh
    exact ⟨hread, hlow, hhigh⟩
  · rintro ⟨hread, hlow, hhigh⟩
    refine ⟨hread, ?_, ?_⟩
    · rw [hnormal]
      exact hlow
    · rw [hupper]
      exact hhigh

/-- The low dword of a memory BAR shows its address when the pool aligns it. -/
theorem lowAgrees_of_poolAligned (hpool : PoolAligned f) (hi : i < pciStdNumBars)
    (hsize : (f.rc.bars i).size ≠ 0) (hmem : (f.rc.bars i).flags &&& pciBaseAddressSpaceIo = 0)
    (normalised : Bool) : LowAgrees normalised (f.rc.bars i) (f.places i).carvedStart := by
  obtain ⟨s, hs, hs', hdvd, h16⟩ := hpool.exists_twoPow hi hsize
  have hheld : held normalised (lowRegister (f.rc.bars i)) (lowDword (f.places i).carvedStart) =
      lowDword (f.places i).carvedStart := by
    rw [held, lowRegister_write hs' hs hdvd h16, ite_self]
  rw [LowAgrees, if_pos hmem, hheld]
  apply BitVec.eq_of_getLsbD_eq
  intro k hk
  rw [BitVec.getLsbD_and, getLsbD_memMask, getLsbD_lowDword]
  rcases Nat.lt_or_ge k 4 with hk4 | hk4
  · rw [getLsbD_of_dvd (s := 4) h16 hk4, Bool.false_and, Bool.false_and]
  · simp [hk, hk4]

/-- The upper half of a 64-bit BAR reads as the pool has it, unless the host has written it to a
register that cannot hold it. -/
theorem upperRead_eq_iff (hrep : Representable f.rc) (hpool : PoolAligned f)
    (hi : i < pciStdNumBars) (hexp : Exposed f.rc i) (h64 : Is64 (f.rc.bars i).flags)
    (hread : pciemHandleCapRead f.rc (barPos (i + 1)) 4 = none) :
    upperRead restored sizes f i = highDword (f.places i).carvedStart ↔
      (f.places i).carvedStart < 1#64 <<< 32 ∨
        (normalises restored sizes f.rc (i + 1) = true → 1#64 <<< 32 ≤ (f.rc.bars i).size) := by
  obtain ⟨s, hs, hs', hdvd, -⟩ := hpool.exists_twoPow hi hexp.1
  obtain ⟨-, hreg, hnext⟩ := hrep.upper i hi hexp.1 h64
  have hbase : upperBase restored f i = highDword (f.places i).carvedStart := by
    rw [upperBase, if_neg fun h : Exposed f.rc (i + 1) ↦ h.1 hnext, if_neg]
    rintro ⟨-, hpos, -⟩
    rw [hnext] at hpos
    exact absurd hpos (by decide)
  rw [upperRead, hread, hreg]
  dsimp only
  rw [hbase, highRegister_read, held]
  cases normalises restored sizes f.rc (i + 1) with
  | false => simp
  | true =>
    rw [if_pos rfl, highRegister_write_iff hs' hs hdvd, imp_iff_right rfl]

/-- In a table that config space can express, only the upper half of an address can be lost. -/
theorem shows_iff_of_representable (hrep : Representable f.rc) (hpool : PoolAligned f)
    (hread : ∀ j < pciStdNumBars, pciemHandleCapRead f.rc (barPos j) 4 = none)
    (hi : i < pciStdNumBars) (hexp : Exposed f.rc i)
    (hmem : (f.rc.bars i).flags &&& pciBaseAddressSpaceIo = 0) : Shows restored sizes f i ↔
      (f.places i).carvedStart < 1#64 <<< 32 ∨ Is64 (f.rc.bars i).flags ∧
        (normalises restored sizes f.rc (i + 1) = true → 1#64 <<< 32 ≤ (f.rc.bars i).size) := by
  have hlow := lowAgrees_of_poolAligned hpool hi hexp.1 hmem (normalises restored sizes f.rc i)
  have hshows : Shows restored sizes f i ↔ (if Is64 (f.rc.bars i).flags ∧ i + 1 < pciStdNumBars
      then upperRead restored sizes f i else 0) = highDword (f.places i).carvedStart :=
    ⟨fun h ↦ h.high, fun h ↦ ⟨hread i hi, hlow, h⟩⟩
  rw [hshows]
  by_cases h64 : Is64 (f.rc.bars i).flags
  · have hlt := (hrep.upper i hi hexp.1 h64).1
    rw [if_pos ⟨h64, hlt⟩, upperRead_eq_iff hrep hpool hi hexp h64 (hread _ hlt),
      and_iff_right h64]
  · rw [if_neg fun h ↦ h64 h.1, eq_comm, highDword_eq_zero_iff]
    exact ⟨.inl, fun h ↦ h.resolve_right fun h' ↦ h64 h'.1⟩

theorem fresh_setUp (allocated : Bool) (calls : List Call) : Fresh (setUp allocated calls).rc where
  detaching := detaching_setUp allocated calls
  initial mgr hm _ he := by
    obtain ⟨reqs, hreqs⟩ := asked_setUp allocated calls mgr hm
    exact initial_of_requested hreqs he

/-- After REGISTER, config space agrees with GET_BAR_INFO and with a mapping on the address of an
exposed BAR exactly when the dwords of the BAR can show it. -/
theorem register_address_agrees_iff {started fd : Except Errno Unit} {hosts : ℕ → Host}
    {slot slot' : PciemSlot} {k : ℕ} {allocated : Bool} {calls : List Call}
    (h : pciemIoctlRegister started fd hosts slot = .ok slot') (hk : k < pciemMaxFunctions)
    (hf : slot.funcs k = some (setUp allocated calls))
    (hscan : ∀ v, Scanned sizes v ((hosts k).scan v)) (hassign : ∀ v, Kept v ((hosts k).assign v))
    (hi : i < pciStdNumBars) (hexp : Exposed (setUp allocated calls).rc i) :
    ∃ g, slot'.funcs k = some g ∧ (AddressAgrees pageShift g i ↔
      Shows (restores (hosts k) slot.busMode) sizes (setUp allocated calls) i) := by
  obtain ⟨g, hg, hinit⟩ := register_complete_init h hk hf
  have hfresh := fresh_setUp allocated calls
  generalize setUp allocated calls = f at *
  obtain ⟨space, hbuilt⟩ := builtFunction_eq slot k f
  rw [hbuilt] at hinit
  refine ⟨g, hg, ?_⟩
  have hsettled := completeInit_settled (f := { f with rc := { f.rc with space } })
    hfresh.detaching hscan hassign hinit
  rw [addressAgrees_iff hsettled ⟨hfresh.detaching, hfresh.initial⟩ hi hexp]
  exact shows_space space

end Addresses

/-- A scan that sizes every BAR. -/
def scanBars (v : PciemRootComplex) : PciemRootComplex :=
  { v with bars := fun j ↦ { v.bars j with
      baseAddrVal :=
        if j < pciStdNumBars then
          ((confWrite v (barPos j) 4 (confRead v (barPos j) 4).2).2.bars j).baseAddrVal
        else
          (v.bars j).baseAddrVal } }

theorem scanned_scanBars (v : PciemRootComplex) : Scanned (fun _ ↦ true) v (scanBars v) := by
  refine ⟨rfl, fun _ ↦ rfl, fun _ ↦ rfl, fun _ _ ↦ rfl, fun j hj ↦ ?_⟩
  rw [scanBars]
  dsimp only
  rw [if_pos hj, if_pos rfl]

theorem kept_id (v : PciemRootComplex) : Kept v (id v) := ⟨rfl, rfl, fun _ _ ↦ rfl⟩

def scanningHost : Host :=
  ⟨.ok (), fun _ ↦ .ok (), .ok (), scanBars, true, id, true, true⟩

def pageCalls (phys : BitVec 64) : List Call :=
  [.addCapability .pcie, .addBar ⟨⟨0, pciBaseAddressMemType64, 0x1000⟩, phys⟩]

/-- A slot whose one function has a 64-bit BAR of one page. -/
def pageSlot (busMode : PciemBusMode) (phys : BitVec 64) : PciemSlot where
  funcs k := if k = 0 then some (setUp true (pageCalls phys)) else none
  numFuncs := 1
  busMode := busMode

theorem register_address_agrees_page : ∃ slot' g,
    pciemIoctlRegister (.ok ()) (.ok ()) (fun _ ↦ scanningHost)
      (pageSlot .virtualRoot 0x140000000) = .ok slot' ∧
    slot'.funcs 0 = some g ∧ AddressAgrees 12 g 0 := by
  obtain ⟨slot', h⟩ : ∃ slot', pciemIoctlRegister (.ok ()) (.ok ()) (fun _ ↦ scanningHost)
    (pageSlot .virtualRoot 0x140000000) = .ok slot' := ⟨_, rfl⟩
  have hexp : Exposed (setUp true (pageCalls 0x140000000)).rc 0 := by decide
  obtain ⟨g, hg, hiff⟩ := register_address_agrees_iff h
    (show 0 < pciemMaxFunctions by decide) rfl scanned_scanBars kept_id (by decide) hexp
  have hempty : Representable (setUp true [.addCapability .pcie]).rc :=
    representable_iff.mpr fun _ _ hsize ↦ absurd rfl hsize
  have hrep : Representable (setUp true (pageCalls 0x140000000)).rc := by
    refine (@representable_addBar_iff _ ⟨⟨0, pciBaseAddressMemType64, 0x1000⟩, 0x140000000⟩
      hempty).mpr fun _ ↦ ?_
    decide
  refine ⟨slot', g, h, hg, hiff.mpr ((shows_iff_of_representable hrep (by decide) (by decide)
    (by decide) hexp (by decide)).mpr (.inr ⟨by decide, ?_⟩))⟩
  decide

/-- On the bus of the host, sizing a small 64-bit BAR above 4 GiB takes the upper half of its
address out of config space. -/
theorem register_above_four_gib_disagrees : ¬ ∀ (started fd : Except Errno Unit)
    (hosts : ℕ → Host) (slot slot' : PciemSlot) (k : ℕ) (allocated : Bool) (calls : List Call)
    (sizes : ℕ → Bool) (i pageShift : ℕ),
    pciemIoctlRegister started fd hosts slot = .ok slot' → k < pciemMaxFunctions →
    slot.funcs k = some (setUp allocated calls) →
    (∀ v, Scanned sizes v ((hosts k).scan v)) → (∀ v, Kept v ((hosts k).assign v)) →
    i < pciStdNumBars → Exposed (setUp allocated calls).rc i →
    ∃ g, slot'.funcs k = some g ∧ AddressAgrees pageShift g i := by
  intro h
  obtain ⟨slot', hslot⟩ : ∃ slot', pciemIoctlRegister (.ok ()) (.ok ()) (fun _ ↦ scanningHost)
    (pageSlot .attachToHost 0x140000000) = .ok slot' := ⟨_, rfl⟩
  have hexp : Exposed (setUp true (pageCalls 0x140000000)).rc 0 := by decide
  obtain ⟨g, hg, query, hquery, -, -, hdecode⟩ := h _ _ _ _ slot' 0 true (pageCalls 0x140000000)
    (fun _ ↦ true) 0 12 hslot (by decide) rfl scanned_scanBars kept_id (by decide) hexp
  cases hslot
  cases hg
  cases hquery
  exact absurd hdecode (by decide)

end Pciem.Bar.Agreement
