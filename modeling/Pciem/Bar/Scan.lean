import Pciem.Bar.Decode
import Pciem.Bar.Register

namespace Pciem.Bar.Scan

open Kernel Config.Capabilities Config.Registers Config.Access Library.MaskedRegister Registers
  Sizing Table Placement Probe Register Decode

/-- A capability takes the writes at the place of a BAR. -/
def writeShadowed (v : PciemRootComplex) (j : ℕ) : Bool :=
  (pciemHandleCapWrite v (barPos j) 4 0).isSome

/-- The scan of a bus: of the BAR registers that the PCI core sizes, each has last been written
with what was read from it first. -/
structure Scanned (sizes : ℕ → Bool) (v v' : PciemRootComplex) : Prop where
  detaching : v'.detaching = v.detaching
  size : ∀ j, (v'.bars j).size = (v.bars j).size
  flags : ∀ j, (v'.bars j).flags = (v.bars j).flags
  caps : ∀ j < pciStdNumBars,
    pciemHandleCapRead v' (barPos j) 4 = pciemHandleCapRead v (barPos j) 4
  base : ∀ j < pciStdNumBars, (v'.bars j).baseAddrVal =
    if sizes j then
      ((confWrite v (barPos j) 4 (confRead v (barPos j) 4).2).2.bars j).baseAddrVal
    else
      (v.bars j).baseAddrVal

/-- The resources of the BARs are fixed, so that assigning resources leaves their registers. -/
structure Kept (v v' : PciemRootComplex) : Prop where
  detaching : v'.detaching = v.detaching
  bars : v'.bars = v.bars
  caps : ∀ j < pciStdNumBars,
    pciemHandleCapRead v' (barPos j) 4 = pciemHandleCapRead v (barPos j) 4

/-- The addresses are stored again after the scan. -/
def restores (host : Host) : PciemBusMode → Bool
  | .virtualRoot => host.slotZero
  | .attachToHost => false

def normalises (restored : Bool) (sizes : ℕ → Bool) (v : PciemRootComplex) (j : ℕ) : Bool :=
  !restored && (sizes j && !writeShadowed v j)

/-- What the register after a BAR with two dwords stores. -/
def upperBase (restored : Bool) (f : PlacedFunction) (i : ℕ) : BitVec 32 :=
  if Exposed f.rc (i + 1) then lowDword (f.places (i + 1)).carvedStart
  else if restored ∧ HasResource f (i + 1) then lowDword (f.places (i + 1)).physAddr
  else highDword (f.places i).carvedStart

section Shadow

variable {v v' : PciemRootComplex} {pos : ℤ} {size : ℕ} {j : ℕ}

theorem bars_handleCapWrite {value : BitVec 32}
    (h : pciemHandleCapWrite v pos size value = some v') : v'.bars = v.bars := by
  rw [pciemHandleCapWrite] at h
  split at h
  · cases h
  · split at h
    · cases h
    · obtain ⟨-, -, rfl⟩ := Option.map_eq_some_iff.mp h
      rfl

theorem isSome_handleWrite (cap : PciemCap) (mem mem' : Library.ByteMemory.Memory)
    (storage offset : ℕ) (x y : BitVec 32) :
    (handleWrite cap mem storage offset size x).isSome =
      (handleWrite cap mem' storage offset size y).isSome := by
  rw [handleWrite_eq, handleWrite_eq]
  cases writeRegister cap offset size with
  | some reg => rfl
  | none =>
    dsimp only
    split_ifs <;> rfl

/-- Whether a capability takes a write depends on neither the value nor the bytes. -/
theorem isSome_handleCapWrite (hm : v'.capMgr = v.capMgr) (x y : BitVec 32) :
    (pciemHandleCapWrite v' pos size x).isSome = (pciemHandleCapWrite v pos size y).isSome := by
  rw [pciemHandleCapWrite, hm, pciemHandleCapWrite]
  split
  · rfl
  · rename_i mgr _
    dsimp only
    split
    · rfl
    · rw [Option.isSome_map, Option.isSome_map]
      exact isSome_handleWrite _ _ _ _ _ x y

theorem writeShadowed_congr (hm : v'.capMgr = v.capMgr) : writeShadowed v' j = writeShadowed v j :=
  isSome_handleCapWrite hm 0 0

theorem handleCapRead_congr (hm : v'.capMgr = v.capMgr) :
    pciemHandleCapRead v' pos size = pciemHandleCapRead v pos size := by
  rw [pciemHandleCapRead, hm, pciemHandleCapRead]

theorem Scanned.read {sizes : ℕ → Bool} (h : Scanned sizes v v') (hd : v.detaching = false)
    (hj : j < pciStdNumBars) (hcap : pciemHandleCapRead v (barPos j) 4 = none) {r : Register 32}
    (hr : barRegister v j = some r) : pciemReadBarAddress v' j =
      r.read (held (sizes j && !writeShadowed v j) r (v.bars j).baseAddrVal) := by
  rw [pciemReadBarAddress_eq, barRegister_congr h.size h.flags, hr, h.base j hj]
  dsimp only
  cases hs : sizes j with
  | false => rfl
  | true =>
    rw [if_pos rfl, confRead_bar hd hj, hcap, confWrite_bar hd hj, pciemReadBarAddress_eq, hr]
    dsimp only
    cases hw : writeShadowed v j with
    | true =>
      obtain ⟨v₁, hv₁⟩ := Option.isSome_iff_exists.mp ((isSome_handleCapWrite rfl
        (r.read (v.bars j).baseAddrVal) 0).trans hw)
      rw [hv₁]
      dsimp only
      rw [bars_handleCapWrite hv₁]
      rfl
    | false =>
      have hnone := (isSome_handleCapWrite (v := v) rfl (r.read (v.bars j).baseAddrVal) 0).trans hw
      rw [Option.isSome_eq_false_iff, Option.isNone_iff_eq_none] at hnone
      rw [hnone]
      dsimp only
      rw [pciemWriteBarAddress_eq, hr]
      dsimp only
      rw [setBar_base]
      exact r.read_write_read _

theorem Kept.read (h : Kept v v') (j : ℕ) :
    pciemReadBarAddress v' j = pciemReadBarAddress v j := by
  have hbars (k : ℕ) : v'.bars k = v.bars k := congrFun h.bars k
  exact read_congr (barRegister_congr (fun k ↦ by rw [hbars]) fun k ↦ by rw [hbars]) (hbars j)

end Shadow

/-- The BARs of a function `f` that has come to be `g`. -/
structure Settled (restored : Bool) (sizes : ℕ → Bool) (f g : PlacedFunction) : Prop where
  detaching : g.rc.detaching = false
  size : ∀ j, (g.rc.bars j).size = (f.rc.bars j).size
  registers : ∀ j, barRegister g.rc j = barRegister f.rc j
  caps : ∀ j < pciStdNumBars,
    pciemHandleCapRead g.rc (barPos j) 4 = pciemHandleCapRead f.rc (barPos j) 4
  physAddr : ∀ j < pciStdNumBars, Exposed f.rc j → (f.places j).carvedStart ≠ 0 ∧
    (g.places j).physAddr = (f.places j).carvedStart
  low : ∀ j < pciStdNumBars, Exposed f.rc j → pciemHandleCapRead f.rc (barPos j) 4 = none →
    pciemReadBarAddress g.rc j = (lowRegister (f.rc.bars j)).read (held
      (normalises restored sizes f.rc j) (lowRegister (f.rc.bars j))
      (lowDword (f.places j).carvedStart))
  high : ∀ j, Exposed f.rc j → TwoDwords f.rc j →
    pciemHandleCapRead f.rc (barPos (j + 1)) 4 = none →
    ∀ r, barRegister f.rc (j + 1) = some r → pciemReadBarAddress g.rc (j + 1) =
      r.read (held (normalises restored sizes f.rc (j + 1)) r (upperBase restored f j))

section Settling

variable {restored : Bool} {sizes : ℕ → Bool} {f f₁ g : PlacedFunction} {v v' : PciemRootComplex}

theorem capMgr_of_rest {bars : ℕ → PciemBarInfo} (h : v' = { v with bars }) :
    v'.capMgr = v.capMgr ∧ v'.detaching = v.detaching := by
  subst h
  exact ⟨rfl, rfl⟩

theorem exposed_congr (hsize : ∀ j, (v'.bars j).size = (v.bars j).size)
    (hflags : ∀ j, (v'.bars j).flags = (v.bars j).flags) (j : ℕ) :
    Exposed v' j ↔ Exposed v j := by
  rw [Exposed, Exposed, IsUpperHalf, IsUpperHalf, hsize, hflags]

theorem Placed.physAddr (h : Placed pciStdNumBars f f₁) {j : ℕ} (hj : j < pciStdNumBars)
    (hexp : Exposed f.rc j) : (f.places j).carvedStart ≠ 0 ∧
      (f₁.places j).physAddr = (f.places j).carvedStart := by
  obtain ⟨hne, hplace⟩ := h.exposed j hj hexp
  exact ⟨hne, by rw [hplace]⟩

/-- The addresses are in the registers of `v`, and then the bus is scanned. -/
theorem settled_of_scanned (hd : f.rc.detaching = false) (h : Placed pciStdNumBars f f₁)
    (hstored : Stored (Exposed f.rc) (fun j ↦ (f.places j).carvedStart) pciStdNumBars f.rc v)
    (hscan : Scanned sizes v g.rc) (hplaces : g.places = f₁.places) :
    Settled false sizes f g := by
  obtain ⟨bars, hrest⟩ := hstored.rest
  obtain ⟨hmgr, hdet⟩ := capMgr_of_rest hrest
  have hnormal (j : ℕ) : (sizes j && !writeShadowed v j) = normalises false sizes f.rc j := by
    rw [writeShadowed_congr hmgr]
    rfl
  refine ⟨hscan.detaching.trans (hdet.trans hd), fun j ↦ (hscan.size j).trans (hstored.size j),
    fun j ↦ (barRegister_congr hscan.size hscan.flags).trans (hstored.barRegister_eq j),
    fun j hj ↦ (hscan.caps j hj).trans (handleCapRead_congr hmgr), fun j hj hexp ↦ ?_,
    fun j hj hexp hcap ↦ ?_, fun j hexp htwo hcap r hr ↦ ?_⟩
  · rw [hplaces]
    exact Placed.physAddr h hj hexp
  · have hreg := (hstored.barRegister_eq j).trans (barRegister_of_size hexp.1)
    rw [hscan.read (hdet.trans hd) hj ((handleCapRead_congr hmgr).trans hcap) hreg, hnormal,
      hstored.low j hj hexp]
  · rw [hscan.read (hdet.trans hd) htwo.2 ((handleCapRead_congr hmgr).trans hcap)
      ((hstored.barRegister_eq _).trans hr), hnormal, hstored.upper hexp htwo, upperBase,
      if_neg fun h : false = true ∧ _ ↦ Bool.noConfusion h.1]

theorem Placed.hasResource (h : Placed pciStdNumBars f f₁)
    (hsize : ∀ j, (v.bars j).size = (f.rc.bars j).size) {j : ℕ} (hj : j < pciStdNumBars)
    (hexp : Exposed f.rc j) : HasResource { f₁ with rc := v } j := by
  obtain ⟨-, hplace⟩ := h.exposed j hj hexp
  refine ⟨?_, by rw [hplace]⟩
  dsimp only
  rw [hsize]
  exact Nat.pos_of_ne_zero fun hzero ↦ hexp.1 (BitVec.eq_of_toNat_eq hzero)

/-- What the register after a BAR stores, told by the resources that the BARs have then. -/
theorem upperBase_eq (h : Placed pciStdNumBars f f₁)
    (hsize : ∀ j, (v.bars j).size = (f.rc.bars j).size) {j : ℕ} (hj : j + 1 < pciStdNumBars)
    (hexp : Exposed f.rc j) :
    (if HasResource { f₁ with rc := v } (j + 1) then lowDword (f₁.places (j + 1)).physAddr
      else highDword (f₁.places j).physAddr) = upperBase true f j := by
  rw [(Placed.physAddr h (Nat.lt_of_succ_lt hj) hexp).2, upperBase]
  by_cases hnext : Exposed f.rc (j + 1)
  · rw [if_pos (Placed.hasResource h hsize hj hnext), if_pos hnext,
      (Placed.physAddr h hj hnext).2]
  · have hplace := h.others (j + 1) fun hlt ↦ hnext hlt.2
    have hiff : HasResource { f₁ with rc := v } (j + 1) ↔ HasResource f (j + 1) := by
      rw [HasResource, hplace, hsize, HasResource]
    simp only [hiff, hplace, if_neg hnext, true_and]

/-- The bus has been scanned, and then the addresses are stored again. -/
theorem settled_of_restored (hd : f.rc.detaching = false) (h : Placed pciStdNumBars f f₁)
    (hscan : Scanned sizes f₁.rc v)
    (hstored : Stored (HasResource { f₁ with rc := v }) (fun j ↦ (f₁.places j).physAddr)
      pciStdNumBars v g.rc) (hplaces : g.places = f₁.places) : Settled true sizes f g := by
  obtain ⟨bars₁, hrest₁⟩ := h.stored.rest
  obtain ⟨hmgr₁, hdet₁⟩ := capMgr_of_rest hrest₁
  obtain ⟨bars, hrest⟩ := hstored.rest
  obtain ⟨hmgr, hdet⟩ := capMgr_of_rest hrest
  have hsize (j : ℕ) : (v.bars j).size = (f.rc.bars j).size :=
    (hscan.size j).trans (h.stored.size j)
  have hflags (j : ℕ) : (v.bars j).flags = (f.rc.bars j).flags :=
    (hscan.flags j).trans (h.stored.flags j)
  have hreg (j : ℕ) : barRegister g.rc j = barRegister f.rc j :=
    (hstored.barRegister_eq j).trans (barRegister_congr hsize hflags)
  refine ⟨hdet.trans (hscan.detaching.trans (hdet₁.trans hd)),
    fun j ↦ (hstored.size j).trans (hsize j), hreg, fun j hj ↦ ?_, fun j hj hexp ↦ ?_,
    fun j hj hexp _ ↦ ?_, fun j hexp htwo _ r hr ↦ ?_⟩
  · rw [handleCapRead_congr hmgr, hscan.caps j hj, handleCapRead_congr hmgr₁]
  · rw [hplaces]
    exact Placed.physAddr h hj hexp
  · rw [pciemReadBarAddress_eq, hreg, barRegister_of_size hexp.1,
      hstored.low j hj (Placed.hasResource h hsize hj hexp), (Placed.physAddr h hj hexp).2]
    rfl
  · have htwo' : TwoDwords v j := by
      rw [TwoDwords, hflags]
      exact htwo
    have hupper := hstored.upper
      (Placed.hasResource h hsize (Nat.lt_of_succ_lt htwo.2) hexp) htwo'
    rw [upperBase_eq h hsize htwo.2 hexp] at hupper
    rw [pciemReadBarAddress_eq, hreg, hr, hupper]
    rfl

theorem Settled.kept {rc : PciemRootComplex} (h : Settled restored sizes f g)
    (hkept : Kept g.rc rc) : Settled restored sizes f { g with rc } := by
  have hbars (j : ℕ) : rc.bars j = g.rc.bars j := congrFun hkept.bars j
  refine ⟨hkept.detaching.trans h.detaching, fun j ↦ by rw [hbars]; exact h.size j,
    fun j ↦ (barRegister_congr (fun k ↦ by rw [hbars]) fun k ↦ by rw [hbars]).trans
      (h.registers j), fun j hj ↦ (hkept.caps j hj).trans (h.caps j hj), h.physAddr,
    fun j hj hexp hcap ↦ (hkept.read j).trans (h.low j hj hexp hcap),
    fun j hexp htwo hcap r hr ↦ (hkept.read (j + 1)).trans (h.high j hexp htwo hcap r hr)⟩

theorem completeInit_settled {host : Host} {busMode : PciemBusMode} {k : ℕ}
    (hd : f.rc.detaching = false) (hscan : ∀ v, Scanned sizes v (host.scan v))
    (hassign : ∀ v, Kept v (host.assign v))
    (h : pciemCompleteInit host busMode k f = .ok g) :
    Settled (restores host busMode) sizes f g := by
  cases busMode with
  | virtualRoot =>
    obtain ⟨f₁, hbars, rfl⟩ := completeInit_virtualRoot h
    have hplaced := completeInitBars_placed hbars
    refine Settled.kept ?_ (hassign _)
    rw [pciemBusInitResources, restores]
    split_ifs with hslot
    · obtain ⟨hstored, hplaces⟩ := hasResource_loop_spec { f₁ with rc := host.scan f₁.rc }
      rw [hslot]
      exact (settled_of_restored hd hplaced (hscan f₁.rc) hstored hplaces).kept (hassign _)
    · rw [Bool.eq_false_of_not_eq_true hslot]
      exact settled_of_scanned hd hplaced hplaced.stored (hscan f₁.rc) rfl
  | attachToHost =>
    obtain ⟨-, f₁, hbars, rfl⟩ := completeInit_attachToHost h
    have hplaced := completeInitBars_placed hbars
    obtain ⟨hstored, hplaces⟩ := storeBars_spec f₁
    generalize storeBars f₁ = f₂ at hstored hplaces ⊢
    have hagain : Stored (Exposed f.rc) (fun j ↦ (f.places j).carvedStart) pciStdNumBars f.rc
        f₂.rc :=
      hplaced.stored.again hstored (exposed_congr hplaced.stored.size hplaced.stored.flags)
        fun j hj hexp ↦ (Placed.physAddr hplaced hj hexp).2
    exact settled_of_scanned (g := { f₂ with rc := host.scan f₂.rc }) hd hplaced hagain
      (hscan f₂.rc) hplaces

end Settling

end Pciem.Bar.Scan
