import Pciem.Bar.Sizing
import Pciem.Bar.Table

namespace Pciem.Bar.Placement

open Kernel Config.Capabilities Config.Access Library.MaskedRegister Library.PowerOfTwo Registers
  Sizing Table

/-- The stores of an address that the loops over the BARs have in common. -/
def storeAddress (v : PciemRootComplex) (i : ℕ) (physAddr : BitVec 64) : PciemRootComplex :=
  let v' := setBar v i ((physAddr &&& 0xFFFFFFFF).setWidth 32)
  if TwoDwords v i then setBar v' (i + 1) ((physAddr >>> 32).setWidth 32) else v'

/-- One turn of the loop of `pciem_complete_init`. `resource` is the outcome of making the
memory resource of a BAR and putting it in the pool. -/
def completeInitBar (resource : ℕ → Except Errno Unit) (f : PlacedFunction) (i : ℕ) :
    Except Errno PlacedFunction :=
  let place := f.places i
  if (f.rc.bars i).size = 0 then
    .ok f
  else if IsUpperHalf f.rc i then
    .ok f
  else if place.carvedStart = 0 then
    .error .enomem
  else
    match resource i with
    | .error e => .error e
    | .ok () => .ok {
        rc := storeAddress f.rc i place.carvedStart
        places := Function.update f.places i
          { place with allocatedRes := true, physAddr := place.carvedStart } }

def completeInitBars (resource : ℕ → Except Errno Unit) (f : PlacedFunction) :
    Except Errno PlacedFunction :=
  (List.range pciStdNumBars).foldlM (completeInitBar resource) f

/-- The BAR is one that the loops do not pass over. -/
def Exposed (v : PciemRootComplex) (i : ℕ) : Prop := (v.bars i).size ≠ 0 ∧ ¬ IsUpperHalf v i

instance (v : PciemRootComplex) (i : ℕ) : Decidable (Exposed v i) :=
  inferInstanceAs (Decidable (_ ∧ _))

def lowDword (a : BitVec 64) : BitVec 32 := a.setWidth 32

def highDword (a : BitVec 64) : BitVec 32 := (a >>> 32).setWidth 32

/-- The addresses of the selected BARs below `n` have been stored, in order. -/
structure Stored (selected : ℕ → Prop) (phys : ℕ → BitVec 64) (n : ℕ)
    (v v' : PciemRootComplex) : Prop where
  size : ∀ j, (v'.bars j).size = (v.bars j).size
  flags : ∀ j, (v'.bars j).flags = (v.bars j).flags
  low : ∀ j < n, selected j → (v'.bars j).baseAddrVal = lowDword (phys j)
  high : ∀ j < n, selected j → TwoDwords v j → (j + 1 < n → ¬ selected (j + 1)) →
    (v'.bars (j + 1)).baseAddrVal = highDword (phys j)
  rest : ∃ bars, v' = { v with bars }

section Address

variable {v : PciemRootComplex} {i j : ℕ} {phys : BitVec 64}

theorem setWidth_and_low (a : BitVec 64) : (a &&& 0xFFFFFFFF).setWidth 32 = lowDword a := by
  apply BitVec.eq_of_toNat_eq
  have hmask : 0xFFFFFFFF#64 = BitVec.twoPow 64 32 - 1 := by decide
  rw [lowDword, BitVec.toNat_setWidth, BitVec.toNat_setWidth, BitVec.ofNat_eq_ofNat, hmask,
    toNat_and_mask a (by decide), Nat.mod_mod]

theorem size_storeAddress (v : PciemRootComplex) (i : ℕ) (phys : BitVec 64) (j : ℕ) :
    ((storeAddress v i phys).bars j).size = (v.bars j).size := by
  rw [storeAddress]
  split_ifs <;> simp

theorem flags_storeAddress (v : PciemRootComplex) (i : ℕ) (phys : BitVec 64) (j : ℕ) :
    ((storeAddress v i phys).bars j).flags = (v.bars j).flags := by
  rw [storeAddress]
  split_ifs <;> simp

theorem low_storeAddress (v : PciemRootComplex) (i : ℕ) (phys : BitVec 64) :
    ((storeAddress v i phys).bars i).baseAddrVal = lowDword phys := by
  rw [storeAddress, setWidth_and_low]
  split_ifs
  · rw [setBar_of_ne (Nat.ne_of_lt (Nat.lt_succ_self i)), setBar_base]
  · rw [setBar_base]

theorem high_storeAddress (h : TwoDwords v i) (phys : BitVec 64) :
    ((storeAddress v i phys).bars (i + 1)).baseAddrVal = highDword phys := by
  rw [storeAddress, if_pos h, setBar_base, highDword]

theorem storeAddress_of_lt (h : j < i) : (storeAddress v i phys).bars j = v.bars j := by
  rw [storeAddress]
  split_ifs
  · rw [setBar_of_ne (by omega), setBar_of_ne (by omega)]
  · rw [setBar_of_ne (by omega)]

end Address

section Stores

variable {selected : ℕ → Prop} {phys : ℕ → BitVec 64} {n : ℕ} {v v' : PciemRootComplex}

theorem Stored.zero (v : PciemRootComplex) : Stored selected phys 0 v v :=
  ⟨fun _ ↦ rfl, fun _ ↦ rfl, fun _ hj ↦ absurd hj (Nat.not_lt_zero _),
    fun _ hj ↦ absurd hj (Nat.not_lt_zero _), ⟨v.bars, rfl⟩⟩

theorem Stored.twoDwords_iff (h : Stored selected phys n v v') (i : ℕ) :
    TwoDwords v' i ↔ TwoDwords v i := by
  rw [TwoDwords, h.flags, TwoDwords]

theorem Stored.barRegister_eq (h : Stored selected phys n v v') (j : ℕ) :
    barRegister v' j = barRegister v j :=
  barRegister_congr h.size h.flags

theorem Stored.skip (h : Stored selected phys n v v') (hn : ¬ selected n) :
    Stored selected phys (n + 1) v v' := by
  refine ⟨h.size, h.flags, fun j hj hsel ↦ ?_, fun j hj hsel htwo hnext ↦ ?_, h.rest⟩
  · rcases Nat.lt_succ_iff_lt_or_eq.mp hj with hj | rfl
    · exact h.low j hj hsel
    · exact absurd hsel hn
  · rcases Nat.lt_succ_iff_lt_or_eq.mp hj with hj | rfl
    · exact h.high j hj hsel htwo fun hlt ↦ hnext (Nat.lt_succ_of_lt hlt)
    · exact absurd hsel hn

theorem Stored.store (h : Stored selected phys n v v') (hn : selected n) :
    Stored selected phys (n + 1) v (storeAddress v' n (phys n)) := by
  refine ⟨fun j ↦ (size_storeAddress _ _ _ j).trans (h.size j),
    fun j ↦ (flags_storeAddress _ _ _ j).trans (h.flags j), fun j hj hsel ↦ ?_,
    fun j hj hsel htwo hnext ↦ ?_, ?_⟩
  · rcases Nat.lt_succ_iff_lt_or_eq.mp hj with hj | rfl
    · rw [storeAddress_of_lt hj, h.low j hj hsel]
    · exact low_storeAddress _ _ _
  · rcases Nat.lt_succ_iff_lt_or_eq.mp hj with hj | rfl
    · have hlt : j + 1 < n := by
        by_contra hle
        obtain rfl : n = j + 1 := by omega
        exact hnext (Nat.lt_succ_self _) hn
      rw [storeAddress_of_lt hlt, h.high j hj hsel htwo fun _ ↦ hnext (Nat.lt_succ_of_lt hlt)]
    · exact high_storeAddress ((h.twoDwords_iff j).mpr htwo) _
  · obtain ⟨bars, rfl⟩ := h.rest
    rw [storeAddress]
    split_ifs
    · exact ⟨_, rfl⟩
    · exact ⟨_, rfl⟩

theorem Stored.again {selected' : ℕ → Prop} {phys' : ℕ → BitVec 64} {v'' : PciemRootComplex}
    (h : Stored selected phys n v v') (h' : Stored selected' phys' n v' v'')
    (hsel : ∀ j, selected' j ↔ selected j) (hphys : ∀ j < n, selected j → phys' j = phys j) :
    Stored selected phys n v v'' := by
  refine ⟨fun j ↦ (h'.size j).trans (h.size j), fun j ↦ (h'.flags j).trans (h.flags j),
    fun j hj hs ↦ ?_, fun j hj hs htwo hnext ↦ ?_, ?_⟩
  · rw [h'.low j hj ((hsel j).mpr hs), hphys j hj hs]
  · rw [h'.high j hj ((hsel j).mpr hs) ((h.twoDwords_iff j).mpr htwo)
      fun hlt hs' ↦ hnext hlt ((hsel _).mp hs'), hphys j hj hs]
  · obtain ⟨bars, rfl⟩ := h.rest
    obtain ⟨bars', rfl⟩ := h'.rest
    exact ⟨bars', rfl⟩

/-- What the register after a stored BAR with two dwords holds in the end. -/
theorem Stored.upper [DecidablePred selected] (h : Stored selected phys pciStdNumBars v v')
    {i : ℕ} (hsel : selected i) (htwo : TwoDwords v i) : (v'.bars (i + 1)).baseAddrVal =
      if selected (i + 1) then lowDword (phys (i + 1)) else highDword (phys i) := by
  split_ifs with hnext
  · exact h.low _ htwo.2 hnext
  · exact h.high i (Nat.lt_of_succ_lt htwo.2) hsel htwo fun _ ↦ hnext

end Stores

section Init

variable {resource : ℕ → Except Errno Unit} {f g : PlacedFunction} {n : ℕ}

theorem Stored.isUpperHalf_iff {selected : ℕ → Prop} {phys : ℕ → BitVec 64}
    {v v' : PciemRootComplex} (h : Stored selected phys n v v') (i : ℕ) :
    IsUpperHalf v' i ↔ IsUpperHalf v i := by
  rw [IsUpperHalf, h.flags, IsUpperHalf]

/-- The first `n` turns of the loop store the addresses of the exposed BARs among them. -/
structure Placed (n : ℕ) (f g : PlacedFunction) : Prop where
  stored : Stored (Exposed f.rc) (fun j ↦ (f.places j).carvedStart) n f.rc g.rc
  exposed : ∀ j < n, Exposed f.rc j → (f.places j).carvedStart ≠ 0 ∧ g.places j =
    { f.places j with physAddr := (f.places j).carvedStart, allocatedRes := true }
  others : ∀ j, ¬ (j < n ∧ Exposed f.rc j) → g.places j = f.places j

theorem Placed.skip (h : Placed n f g) (hn : ¬ Exposed f.rc n) : Placed (n + 1) f g := by
  refine ⟨h.stored.skip hn, fun j hj hexp ↦ ?_, fun j hj ↦ h.others j fun hlt ↦
    hj ⟨Nat.lt_succ_of_lt hlt.1, hlt.2⟩⟩
  rcases Nat.lt_succ_iff_lt_or_eq.mp hj with hj | rfl
  · exact h.exposed j hj hexp
  · exact absurd hexp hn

theorem Placed.store (h : Placed n f g) (hn : Exposed f.rc n)
    (hcarved : (f.places n).carvedStart ≠ 0) : Placed (n + 1) f {
      rc := storeAddress g.rc n (f.places n).carvedStart
      places := Function.update g.places n
        { f.places n with physAddr := (f.places n).carvedStart, allocatedRes := true } } := by
  refine ⟨h.stored.store hn, fun j hj hexp ↦ ?_, fun j hj ↦ ?_⟩
  · rcases Nat.lt_succ_iff_lt_or_eq.mp hj with hj | rfl
    · dsimp only
      rw [Function.update_of_ne (Nat.ne_of_lt hj)]
      exact h.exposed j hj hexp
    · exact ⟨hcarved, Function.update_self _ _ _⟩
  · have hne : j ≠ n := by
      rintro rfl
      exact hj ⟨Nat.lt_succ_self j, hn⟩
    dsimp only
    rw [Function.update_of_ne hne]
    exact h.others j fun hlt ↦ hj ⟨Nat.lt_succ_of_lt hlt.1, hlt.2⟩

theorem Placed.turn {g' : PlacedFunction} (h : Placed n f g)
    (hturn : completeInitBar resource g n = .ok g') : Placed (n + 1) f g' := by
  have hplace : g.places n = f.places n := h.others n fun hlt ↦ Nat.lt_irrefl n hlt.1
  have hexposed : Exposed f.rc n ↔ (g.rc.bars n).size ≠ 0 ∧ ¬ IsUpperHalf g.rc n := by
    rw [Exposed, h.stored.size, h.stored.isUpperHalf_iff]
  rw [completeInitBar, hplace] at hturn
  split_ifs at hturn with hsize hupper hcarved
  · cases hturn
    exact h.skip fun hexp ↦ (hexposed.mp hexp).1 hsize
  · cases hturn
    exact h.skip fun hexp ↦ (hexposed.mp hexp).2 hupper
  · split at hturn
    · cases hturn
    · cases hturn
      exact h.store (hexposed.mpr ⟨hsize, hupper⟩) hcarved

theorem placed_foldlM (n : ℕ) (h : (List.range n).foldlM (completeInitBar resource) f = .ok g) :
    Placed n f g := by
  induction n generalizing g with
  | zero =>
    cases h
    exact ⟨.zero f.rc, fun _ hj ↦ absurd hj (Nat.not_lt_zero _), fun _ _ ↦ rfl⟩
  | succ n ih =>
    rw [List.range_succ, List.foldlM_append] at h
    cases hn : (List.range n).foldlM (completeInitBar resource) f with
    | error e =>
      rw [hn] at h
      cases h
    | ok g' =>
      rw [hn] at h
      have hturn : (List.foldlM (completeInitBar resource) g' [n]) = .ok g := h
      rw [List.foldlM_cons, funext fun s ↦ List.foldlM_nil, bind_pure] at hturn
      exact (ih hn).turn hturn

/-- What `pciem_complete_init` does to the BARs when it gets through its loop. -/
theorem completeInitBars_placed (h : completeInitBars resource f = .ok g) :
    Placed pciStdNumBars f g :=
  placed_foldlM _ h

end Init

end Pciem.Bar.Placement
