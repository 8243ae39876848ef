import Pciem.Bar.Placement

namespace Pciem.Bar.Probe

open Kernel Config.Capabilities Config.Access Library.MaskedRegister Library.PowerOfTwo Registers
  Sizing Table Placement

/-- The registers of a BAR. -/
def dwords (v : PciemRootComplex) (i : ℕ) : List ℕ := if TwoDwords v i then [i, i + 1] else [i]

/-- The sizing sequence on a register: what it holds is read, all ones are written and the
mask is read, and what was read first is written back. -/
def sizeDword (v : PciemRootComplex) (j : ℕ) : PciemRootComplex :=
  let original := pciemReadBarAddress v j
  let v' := (pciemWriteBarAddress v j (.allOnes 32)).2
  (pciemWriteBarAddress v' j original).2

def probe (v : PciemRootComplex) (i : ℕ) : PciemRootComplex := (dwords v i).foldl sizeDword v

/-- Sizing a BAR leaves each of its registers reading what it read before. -/
def Transparent (v : PciemRootComplex) (i : ℕ) : Prop :=
  ∀ j ∈ dwords v i, pciemReadBarAddress (probe v i) j = pciemReadBarAddress v j

def writeAddress (v : PciemRootComplex) (i : ℕ) (a : BitVec 64) : PciemRootComplex :=
  let v' := (pciemWriteBarAddress v i (lowDword a)).2
  if TwoDwords v i then (pciemWriteBarAddress v' (i + 1) (highDword a)).2 else v'

/-- An address that is written to a BAR is read back from it. -/
def ReadsBack (v : PciemRootComplex) (i : ℕ) (a : BitVec 64) : Prop :=
  pciemReadBarAddress (writeAddress v i a) i &&& pciBaseAddressMemMask = lowDword a ∧
    (TwoDwords v i → pciemReadBarAddress (writeAddress v i a) (i + 1) = highDword a)

section Dwords

variable {v : PciemRootComplex} {i j : ℕ} {r : Register 32}

theorem setBar_setBar (v : PciemRootComplex) (i : ℕ) (b b' : BitVec 32) :
    setBar (setBar v i b) i b' = setBar v i b' := by
  simp [setBar]

theorem sizeDword_eq (v : PciemRootComplex) (j : ℕ) : sizeDword v j =
    match barRegister v j with
    | some r => setBar v j (r.write (r.read (v.bars j).baseAddrVal))
    | none => v := by
  rw [sizeDword, pciemReadBarAddress_eq, pciemWriteBarAddress_eq, pciemWriteBarAddress_eq v]
  cases hr : barRegister v j with
  | none =>
    dsimp only
    rw [hr]
  | some r =>
    dsimp only
    rw [barRegister_setBar, hr]
    exact setBar_setBar _ _ _ _

@[simp]
theorem barRegister_sizeDword (v : PciemRootComplex) (i j : ℕ) :
    barRegister (sizeDword v j) i = barRegister v i := by
  rw [sizeDword_eq]
  split
  · exact barRegister_setBar _ _ _ _
  · rfl

theorem sizeDword_of_ne (h : i ≠ j) : (sizeDword v j).bars i = v.bars i := by
  rw [sizeDword_eq]
  split
  · exact setBar_of_ne h
  · rfl

/-- A register can hold what it holds. -/
def Keeps (v : PciemRootComplex) (j : ℕ) : Prop :=
  ∀ r, barRegister v j = some r →
    r.read (r.write (v.bars j).baseAddrVal) = r.read (v.bars j).baseAddrVal

theorem read_sizeDword_iff (v : PciemRootComplex) (j : ℕ) :
    pciemReadBarAddress (sizeDword v j) j = pciemReadBarAddress v j ↔ Keeps v j := by
  rw [pciemReadBarAddress_eq, pciemReadBarAddress_eq, barRegister_sizeDword, sizeDword_eq, Keeps]
  cases hr : barRegister v j with
  | none => simp
  | some r =>
    dsimp only
    rw [setBar_base, Register.read_write_read]
    simp

theorem read_congr {v' : PciemRootComplex} (hr : barRegister v' j = barRegister v j)
    (hb : v'.bars j = v.bars j) : pciemReadBarAddress v' j = pciemReadBarAddress v j := by
  rw [pciemReadBarAddress_eq, pciemReadBarAddress_eq, hr, hb]

theorem transparent_iff : Transparent v i ↔ ∀ j ∈ dwords v i, Keeps v j := by
  rw [Transparent, probe, dwords]
  split_ifs with htwo
  · have hne : i ≠ i + 1 := Nat.ne_of_lt (Nat.lt_succ_self i)
    have hlow : pciemReadBarAddress (sizeDword (sizeDword v i) (i + 1)) i =
        pciemReadBarAddress (sizeDword v i) i :=
      read_congr (barRegister_sizeDword _ _ _) (sizeDword_of_ne hne)
    have hkeeps : Keeps (sizeDword v i) (i + 1) ↔ Keeps v (i + 1) := by
      rw [Keeps, Keeps, barRegister_sizeDword, sizeDword_of_ne hne.symm]
    have hhigh : pciemReadBarAddress (sizeDword v i) (i + 1) = pciemReadBarAddress v (i + 1) :=
      read_congr (barRegister_sizeDword _ _ _) (sizeDword_of_ne hne.symm)
    simp only [List.foldl_cons, List.foldl_nil, List.mem_cons, List.not_mem_nil, or_false,
      forall_eq_or_imp, forall_eq]
    rw [hlow, read_sizeDword_iff, ← hhigh, read_sizeDword_iff, hkeeps]
  · simp only [List.foldl_cons, List.foldl_nil, List.forall_mem_singleton]
    exact read_sizeDword_iff v i

/-- What the register after a BAR reads when the value is written to it. -/
def highEcho (v : PciemRootComplex) (i : ℕ) (value : BitVec 32) : BitVec 32 :=
  match barRegister v (i + 1) with
  | some r => r.read (r.write value)
  | none => 0

theorem read_writeAddress_low (hr : barRegister v i = some r) (a : BitVec 64) :
    pciemReadBarAddress (writeAddress v i a) i = r.read (r.write (lowDword a)) := by
  have hne : i ≠ i + 1 := Nat.ne_of_lt (Nat.lt_succ_self i)
  have hlow : (pciemWriteBarAddress v i (lowDword a)).2 = setBar v i (r.write (lowDword a)) := by
    rw [pciemWriteBarAddress_eq, hr]
  have hread : pciemReadBarAddress (setBar v i (r.write (lowDword a))) i =
      r.read (r.write (lowDword a)) := by
    rw [pciemReadBarAddress_eq, barRegister_setBar, hr]
    dsimp only
    rw [setBar_base]
  rw [writeAddress, hlow]
  split_ifs
  · rw [← hread, pciemWriteBarAddress_eq]
    split
    · exact read_congr (barRegister_setBar _ _ _ _) (setBar_of_ne hne)
    · rfl
  · exact hread

theorem read_writeAddress_high (htwo : TwoDwords v i) (a : BitVec 64) :
    pciemReadBarAddress (writeAddress v i a) (i + 1) = highEcho v i (highDword a) := by
  have hreg : barRegister (pciemWriteBarAddress v i (lowDword a)).2 (i + 1) =
      barRegister v (i + 1) := by
    rw [pciemWriteBarAddress_eq]
    split
    · exact barRegister_setBar _ _ _ _
    · rfl
  rw [writeAddress, if_pos htwo, pciemReadBarAddress_eq, pciemWriteBarAddress_eq, hreg, highEcho]
  cases hr : barRegister v (i + 1) with
  | none =>
    dsimp only
    rw [hreg, hr]
  | some r =>
    dsimp only
    rw [barRegister_setBar, hreg, hr]
    dsimp only
    rw [setBar_base]

end Dwords

section Aligned

variable {bar : PciemBarInfo} {s : ℕ} {a : BitVec 64}

theorem getLsbD_lowDword (a : BitVec 64) (k : ℕ) :
    (lowDword a).getLsbD k = (a.getLsbD k && decide (k < 32)) := by
  rw [lowDword, BitVec.getLsbD_setWidth, Bool.and_comm]

theorem getLsbD_of_dvd (h : 2 ^ s ∣ a.toNat) {k : ℕ} (hk : k < s) : a.getLsbD k = false := by
  rw [← BitVec.testBit_toNat]
  obtain ⟨m, hm⟩ := h
  rw [hm, Nat.testBit_two_pow_mul, decide_eq_false (Nat.not_le.mpr hk), Bool.false_and]

/-- The register of a BAR holds the lower half of every address that its size divides. -/
theorem lowRegister_write (hsize : bar.size = .twoPow 64 s) (hs : s < 64)
    (hdvd : 2 ^ s ∣ a.toNat) (h16 : 16 ∣ a.toNat) :
    (lowRegister bar).write (lowDword a) = lowDword a := by
  apply BitVec.eq_of_getLsbD_eq
  intro k hk
  rw [Register.write, BitVec.getLsbD_and, getLsbD_lowDword]
  rcases Nat.lt_or_ge k s with hks | hks
  · rw [getLsbD_of_dvd hdvd hks, Bool.false_and, Bool.false_and]
  · rcases Nat.lt_or_ge k 4 with hk4 | hk4
    · rw [getLsbD_of_dvd (s := 4) h16 hk4, Bool.false_and, Bool.false_and]
    · rw [getLsbD_lowRegister_of_le hsize hs hks hk4 hk, Bool.and_true]

theorem highDword_eq_zero_iff (a : BitVec 64) : highDword a = 0 ↔ a < 1#64 <<< 32 := by
  have hgib : (1#64 <<< 32).toNat = 2 ^ 32 := rfl
  have hnat : (highDword a).toNat = a.toNat / 2 ^ 32 := by
    rw [highDword, BitVec.toNat_setWidth, BitVec.toNat_ushiftRight, Nat.shiftRight_eq_div_pow]
    exact Nat.mod_eq_of_lt (Nat.div_lt_of_lt_mul a.isLt)
  rw [BitVec.lt_def, hgib, ← BitVec.toNat_inj, hnat]
  exact Nat.div_eq_zero_iff_lt (by decide)

theorem lowRegister_echo (hsize : bar.size = .twoPow 64 s) (hs : s < 64) (h4 : 4 ≤ s)
    (hdvd : 2 ^ s ∣ a.toNat) : (lowRegister bar).read ((lowRegister bar).write (lowDword a)) &&&
      pciBaseAddressMemMask = lowDword a := by
  have h16 : 16 ∣ a.toNat := Nat.dvd_trans (Nat.pow_dvd_pow 2 h4) hdvd
  rw [lowRegister_write hsize hs hdvd h16, Register.read]
  apply BitVec.eq_of_getLsbD_eq
  intro k hk
  rw [BitVec.getLsbD_and, BitVec.getLsbD_or, getLsbD_fixed, getLsbD_memMask, getLsbD_lowDword]
  rcases Nat.lt_or_ge k 4 with hk4 | hk4
  · simp [getLsbD_of_dvd (s := 4) h16 hk4, Nat.not_le.mpr hk4]
  · simp [hk, hk4, Nat.not_lt.mpr hk4]

/-- So does the register of its upper half, but only of a BAR of at least 4 GiB. -/
theorem highRegister_write_iff (hsize : bar.size = .twoPow 64 s) (hs : s < 64)
    (hdvd : 2 ^ s ∣ a.toNat) : (highRegister bar).write (highDword a) = highDword a ↔
      a < 1#64 <<< 32 ∨ 1#64 <<< 32 ≤ bar.size := by
  rw [← BitVec.not_lt, hsize, lt_four_gib hs, ← highDword_eq_zero_iff, Register.write]
  rcases Nat.lt_or_ge s 32 with h32 | h32
  · have hzero : (highRegister bar).writable = 0 := by
      apply BitVec.eq_of_getLsbD_eq
      intro k _
      rw [getLsbD_highRegister hsize hs, decide_eq_false (by omega)]
      exact BitVec.getLsbD_zero.symm
    rw [hzero]
    simp [h32, eq_comm]
  · refine iff_of_true ?_ (.inr (Nat.not_lt.mpr h32))
    apply BitVec.eq_of_getLsbD_eq
    intro k hk
    rw [BitVec.getLsbD_and, getLsbD_highRegister hsize hs, highDword, BitVec.getLsbD_setWidth,
      BitVec.getLsbD_ushiftRight, Nat.add_comm 32]
    rcases Nat.lt_or_ge (k + 32) s with hks | hks
    · rw [getLsbD_of_dvd hdvd hks, Bool.and_false, Bool.false_and]
    · simp [h32, hk, hks]

end Aligned

/-- The pool aligns every BAR to its size, and to more than 16 bytes. -/
def PoolAligned (f : PlacedFunction) : Prop :=
  ∀ j < pciStdNumBars, (f.rc.bars j).size ≠ 0 → IsPowerOfTwo (f.rc.bars j).size ∧
    (f.rc.bars j).size.toNat ∣ (f.places j).carvedStart.toNat ∧
    16 ∣ (f.places j).carvedStart.toNat

instance (f : PlacedFunction) : Decidable (PoolAligned f) :=
  inferInstanceAs (Decidable (∀ j < pciStdNumBars, _ → _ ∧ _ ∧ _))

theorem PoolAligned.exists_twoPow {f : PlacedFunction} (h : PoolAligned f) {j : ℕ}
    (hj : j < pciStdNumBars) (hsize : (f.rc.bars j).size ≠ 0) : ∃ s < 64,
      (f.rc.bars j).size = .twoPow 64 s ∧ 2 ^ s ∣ (f.places j).carvedStart.toNat ∧
      16 ∣ (f.places j).carvedStart.toNat := by
  obtain ⟨hpow, hdvd, h16⟩ := h j hj hsize
  obtain ⟨s, hs, hs'⟩ := isPowerOfTwo_iff.mp hpow
  rw [hs', BitVec.toNat_twoPow_of_lt hs] at hdvd
  exact ⟨s, hs, hs', hdvd, h16⟩

/-- The register after a BAR can be sized and still read the upper half of the address. -/
def RestoresUpper (v : PciemRootComplex) (i : ℕ) (a : BitVec 64) : Prop :=
  TwoDwords v i → i % 2 = 0 →
    if (v.bars (i + 1)).size = 0 then a < 1#64 <<< 32 ∨ 1#64 <<< 32 ≤ (v.bars i).size
    else (lowRegister (v.bars (i + 1))).read ((lowRegister (v.bars (i + 1))).write (highDword a)) =
      (lowRegister (v.bars (i + 1))).read (highDword a)

/-- The register after a BAR can hold the upper half of the address. -/
def HoldsUpper (v : PciemRootComplex) (i : ℕ) (a : BitVec 64) : Prop :=
  TwoDwords v i →
    if (v.bars (i + 1)).size = 0 then
      a < 1#64 <<< 32 ∨ i % 2 = 0 ∧ 1#64 <<< 32 ≤ (v.bars i).size
    else (lowRegister (v.bars (i + 1))).read ((lowRegister (v.bars (i + 1))).write (highDword a)) =
      highDword a

section Exposed

variable {v : PciemRootComplex} {i s : ℕ} {a : BitVec 64}

theorem isUpperHalf_next_iff (htwo : TwoDwords v i) : IsUpperHalf v (i + 1) ↔ i % 2 = 0 := by
  rw [IsUpperHalf, Nat.add_sub_cancel]
  constructor
  · rintro ⟨-, hodd, -⟩
    omega
  · intro heven
    exact ⟨Nat.succ_pos i, by omega, htwo.1⟩

theorem highRegister_read (bar : PciemBarInfo) (b : BitVec 32) :
    (highRegister bar).read b = b :=
  BitVec.or_zero

theorem highEcho_eq_iff (hsize : (v.bars i).size = .twoPow 64 s) (hs : s < 64)
    (hdvd : 2 ^ s ∣ a.toNat) (htwo : TwoDwords v i) :
    highEcho v i (highDword a) = highDword a ↔ HoldsUpper v i a := by
  rw [highEcho, HoldsUpper, imp_iff_right htwo]
  split_ifs with hnext
  · rcases Nat.mod_two_eq_zero_or_one i with heven | hodd
    · rw [barRegister_next heven htwo.1 hnext]
      dsimp only
      rw [highRegister_read, highRegister_write_iff hsize hs hdvd]
      simp [heven]
    · rw [barRegister_next_of_odd hodd hnext, eq_comm, highDword_eq_zero_iff]
      simp [hodd]
  · rw [barRegister_of_size hnext]

end Exposed

section Keeping

variable {resource : ℕ → Except Errno Unit} {f g : PlacedFunction} {i : ℕ}

theorem keeps_low (h : Placed pciStdNumBars f g) (hpool : PoolAligned f)
    (hi : i < pciStdNumBars) (hexp : Exposed f.rc i) : Keeps g.rc i := by
  intro r hr
  obtain ⟨s, hs, hsize, hdvd, h16⟩ := hpool.exists_twoPow hi hexp.1
  rw [h.stored.barRegister_eq, barRegister_of_size hexp.1] at hr
  cases hr
  rw [h.stored.low i hi hexp, lowRegister_write hsize hs hdvd h16]

theorem keeps_high_iff (h : Placed pciStdNumBars f g) (hpool : PoolAligned f)
    (hi : i < pciStdNumBars) (hexp : Exposed f.rc i) (htwo : TwoDwords f.rc i) :
    Keeps g.rc (i + 1) ↔ RestoresUpper f.rc i (f.places i).carvedStart := by
  obtain ⟨s, hs, hsize, hdvd, h16⟩ := hpool.exists_twoPow hi hexp.1
  rcases Nat.mod_two_eq_zero_or_one i with heven | hodd
  · have hbase := h.stored.high i hi hexp htwo fun _ hnext ↦
      hnext.2 ((isUpperHalf_next_iff htwo).mpr heven)
    rw [Keeps, h.stored.barRegister_eq, hbase, RestoresUpper, imp_iff_right htwo,
      imp_iff_right heven]
    split_ifs with hnext
    · rw [barRegister_next heven htwo.1 hnext]
      simp only [Option.some.injEq, forall_eq', highRegister_read]
      exact highRegister_write_iff hsize hs hdvd
    · rw [barRegister_of_size hnext]
      simp only [Option.some.injEq, forall_eq']
  · refine iff_of_true ?_ fun _ heven ↦ absurd heven (by omega)
    by_cases hnext : (f.rc.bars (i + 1)).size = 0
    · intro r hr
      rw [h.stored.barRegister_eq, barRegister_next_of_odd hodd hnext] at hr
      cases hr
    · refine keeps_low h hpool htwo.2 ⟨hnext, fun hupper ↦ ?_⟩
      have heven := (isUpperHalf_next_iff htwo).mp hupper
      omega

/-- An exposed BAR can be sized without changing what it reads exactly when the register of its
upper half can be given back the upper half of its address, and an address can be written to it
and read back exactly when that register can hold its upper half. -/
theorem bar_probe_transparent_iff (hinit : completeInitBars resource f = .ok g)
    (hpool : PoolAligned f) (hi : i < pciStdNumBars) (hexp : Exposed f.rc i)
    (h16 : 16 ≤ (f.rc.bars i).size) :
    (Transparent g.rc i ↔ RestoresUpper f.rc i (f.places i).carvedStart) ∧
      ∀ a : BitVec 64, (f.rc.bars i).size.toNat ∣ a.toNat →
        (ReadsBack g.rc i a ↔ HoldsUpper f.rc i a) := by
  have h := completeInitBars_placed hinit
  have htwo := h.stored.twoDwords_iff i
  obtain ⟨s, hs, hsize, -⟩ := hpool.exists_twoPow hi hexp.1
  have h4 : 4 ≤ s := by
    rw [hsize, BitVec.le_def, BitVec.toNat_twoPow_of_lt hs] at h16
    exact (Nat.pow_le_pow_iff_right (a := 2) (n := 4) (by decide)).mp h16
  constructor
  · rw [transparent_iff, dwords]
    split_ifs with htwo'
    · simp only [List.mem_cons, List.not_mem_nil, or_false, forall_eq_or_imp, forall_eq]
      rw [keeps_high_iff h hpool hi hexp (htwo.mp htwo')]
      exact and_iff_right (keeps_low h hpool hi hexp)
    · rw [List.forall_mem_singleton]
      exact iff_of_true (keeps_low h hpool hi hexp) fun htwo'' ↦ absurd (htwo.mpr htwo'') htwo'
  · intro a hdvd
    rw [hsize, BitVec.toNat_twoPow_of_lt hs] at hdvd
    have hreg := (h.stored.barRegister_eq i).trans (barRegister_of_size hexp.1)
    have hecho : highEcho g.rc i (highDword a) = highEcho f.rc i (highDword a) := by
      rw [highEcho, h.stored.barRegister_eq, highEcho]
    rw [ReadsBack, read_writeAddress_low hreg, and_iff_right (lowRegister_echo hsize hs h4 hdvd)]
    by_cases htwo' : TwoDwords f.rc i
    · rw [imp_iff_right (htwo.mpr htwo'), read_writeAddress_high (htwo.mpr htwo'), hecho]
      exact highEcho_eq_iff hsize hs hdvd htwo'
    · exact iff_of_true (fun h' ↦ absurd (htwo.mp h') htwo') fun h' ↦ absurd h' htwo'

end Keeping

/-- A function with a 64-bit BAR of one page at the address. -/
def pageBar (phys : BitVec 64) : PlacedFunction :=
  addBar .alloc ⟨⟨0, pciBaseAddressMemType64, 0x1000⟩, phys⟩

def pageBarPlaced (phys : BitVec 64) : PlacedFunction :=
  ((completeInitBars (fun _ ↦ .ok ()) (pageBar phys)).toOption).getD (pageBar phys)

theorem bar_probe_transparent_below_four_gib :
    Transparent (pageBarPlaced 0x10000000).rc 0 ∧
      ReadsBack (pageBarPlaced 0x10000000).rc 0 0x20000000 := by
  have hinit : completeInitBars (fun _ ↦ .ok ()) (pageBar 0x10000000) =
    .ok (pageBarPlaced 0x10000000) := rfl
  have h := bar_probe_transparent_iff (i := 0) hinit (by decide) (by decide) (by decide)
    (by decide)
  exact ⟨h.1.mpr fun _ _ ↦ .inl (by decide), (h.2 _ (by decide)).mpr fun _ ↦ .inl (by decide)⟩

/-- Sizing a small 64-bit BAR at 4 GiB takes the upper half of its address away. -/
theorem probe_above_four_gib_loses_address :
    ¬ ∀ (resource : ℕ → Except Errno Unit) (f g : PlacedFunction) (i : ℕ),
      completeInitBars resource f = .ok g → PoolAligned f → i < pciStdNumBars →
      Exposed f.rc i → (f.rc.bars i).flags &&& pciBaseAddressSpaceIo = 0 →
      16 ≤ (f.rc.bars i).size → Transparent g.rc i ∧
        ∀ a : BitVec 64, (f.rc.bars i).size.toNat ∣ a.toNat → ReadsBack g.rc i a := by
  intro h
  have hprobe := (h (fun _ ↦ .ok ()) (pageBar 0x100000000) (pageBarPlaced 0x100000000) 0 rfl
    (by decide) (by decide) (by decide) (by decide) (by decide)).1
  exact absurd (hprobe 1 (by decide)) (by decide)

end Pciem.Bar.Probe
