import Pciem.Bar.Scan
import Pciem.Config.Effects
import Pciem.Slot.Effects

namespace Pciem.Slot.Bars

open Kernel Library.Unwinding Config.Capabilities Config.Access Config.Build Config.Effects
  Bar.Table Bar.Placement Bar.Registers Register Effects
open State hiding PciemRootComplex
open Bar.Register (Host storeAgain storeBars HasResource pciemBusInitResources
  pciemSetMultifunction)
open Bar.Scan (exposed_congr)

/-- A table without a BAR. -/
def Bare (v : PciemRootComplex) : Prop :=
  ∀ i < pciStdNumBars, (v.bars i).size = 0 ∧ (v.bars i).flags = 0

instance (v : PciemRootComplex) : Decidable (Bare v) :=
  inferInstanceAs (Decidable (∀ _ < _, _))

/-- The sizes and the flags of the BARs are the same, and so are the addresses if there are no
BARs. -/
structure Rewritten (v v' : PciemRootComplex) : Prop where
  size : ∀ j, (v'.bars j).size = (v.bars j).size
  flags : ∀ j, (v'.bars j).flags = (v.bars j).flags
  bare : Bare v → v'.bars = v.bars

section Rewritten

variable {v v' v'' : PciemRootComplex} {i : ℕ}

theorem Rewritten.of_bars_eq (h : v'.bars = v.bars) : Rewritten v v' :=
  ⟨fun j ↦ by rw [h], fun j ↦ by rw [h], fun _ ↦ h⟩

theorem Rewritten.refl (v : PciemRootComplex) : Rewritten v v := .of_bars_eq rfl

theorem Rewritten.isBare (h : Rewritten v v') (hbare : Bare v) : Bare v' :=
  fun i hi ↦ ⟨(h.size i).trans (hbare i hi).1, (h.flags i).trans (hbare i hi).2⟩

theorem Rewritten.trans (h : Rewritten v v') (h' : Rewritten v' v'') : Rewritten v v'' where
  size j := (h'.size j).trans (h.size j)
  flags j := (h'.flags j).trans (h.flags j)
  bare hbare := (h'.bare (h.isBare hbare)).trans (h.bare hbare)

theorem Rewritten.exposed_iff (h : Rewritten v v') (j : ℕ) : Exposed v' j ↔ Exposed v j :=
  exposed_congr h.size h.flags j

theorem writeBarAddress_of_bare (hbare : Bare v) (hi : i < pciStdNumBars) (value : BitVec 32) :
    (pciemWriteBarAddress v i value).2 = v := by
  rw [pciemWriteBarAddress]
  dsimp only
  rw [if_neg (not_not.mpr (hbare i hi).1), prevBar]
  split
  · rfl
  · rename_i prev hprev
    split_ifs at hprev
    cases hprev
    rw [(hbare (i - 1) (Nat.lt_of_le_of_lt (Nat.sub_le i 1) hi)).2, if_neg]
    exact not_not.mpr BitVec.zero_and

theorem rewritten_writeBarAddress (hi : i < pciStdNumBars) (value : BitVec 32) :
    Rewritten v (pciemWriteBarAddress v i value).2 := by
  rcases writeBarAddress_eq v i value with heq | ⟨addr, heq⟩
  · rw [heq]
    exact .refl v
  · refine ⟨fun j ↦ ?_, fun j ↦ ?_, fun hbare ↦ ?_⟩
    · rw [heq, setBar_size]
    · rw [heq, setBar_flags]
    · rw [writeBarAddress_of_bare hbare hi]

theorem bars_handleCapWrite {pos : ℤ} {size : ℕ} {value : BitVec 32}
    (h : pciemHandleCapWrite v pos size value = some v') : v'.bars = v.bars := by
  rw [pciemHandleCapWrite] at h
  split at h
  · cases h
  · split at h
    · cases h
    · obtain ⟨-, -, rfl⟩ := Option.map_eq_some_iff.mp h
      rfl

theorem barIndex_lt {pos : ℤ} {size : ℕ} (h : IsBar pos size) : barIndex pos < pciStdNumBars := by
  obtain ⟨hlo, hhi, -, -⟩ := h
  simp only [barIndex, pciBaseAddress0, pciStdNumBars] at hlo hhi ⊢
  omega

theorem bars_writeBytes (v : PciemRootComplex) (p size : ℕ) (value : BitVec 32) :
    (writeBytes v p size value).2.bars = v.bars := by
  rcases writeBytes_eq v p size value with h | h
  · rw [h]
  · rw [h]

theorem rewritten_applyWrite (v : PciemRootComplex) (w : ConfWrite) :
    Rewritten v (applyWrite v w) := by
  change Rewritten v (confWrite v w.pos w.size w.value).2
  unfold confWrite
  split
  · exact .refl v
  · split
    · dsimp only
      split
      · exact .refl v
      · split
        · rename_i hcap
          exact .of_bars_eq (bars_handleCapWrite hcap)
        · exact .of_bars_eq (bars_writeBytes v _ _ _)
    · split
      · exact .refl v
      · split
        · rename_i hcap
          exact .of_bars_eq (bars_handleCapWrite hcap)
        · split
          · rename_i hbar
            exact rewritten_writeBarAddress (barIndex_lt hbar) w.value
          · split
            · exact .refl v
            · exact .of_bars_eq (bars_writeBytes v _ _ _)

theorem rewritten_applyWrites (ws : List ConfWrite) (v : PciemRootComplex) :
    Rewritten v (ws.foldl applyWrite v) := by
  induction ws generalizing v with
  | nil => exact .refl v
  | cons w ws ih => exact (rewritten_applyWrite v w).trans (ih (applyWrite v w))

end Rewritten

section Loops

variable {f g : PlacedFunction}

/-- A loop that stores addresses again leaves the places of the BARs alone. -/
theorem rewritten_storeAgain {selected : PlacedFunction → ℕ → Prop}
    [∀ f i, Decidable (selected f i)]
    (hsel : ∀ f i, selected f i → (f.rc.bars i).size ≠ 0) (n : ℕ) (hn : n ≤ pciStdNumBars)
    (f : PlacedFunction) :
    Rewritten f.rc ((List.range n).foldl (storeAgain selected) f).rc ∧
      ((List.range n).foldl (storeAgain selected) f).places = f.places := by
  induction n with
  | zero => exact ⟨.refl f.rc, rfl⟩
  | succ n ih =>
    obtain ⟨hrc, hplaces⟩ := ih (Nat.le_of_succ_le hn)
    rw [List.range_succ, List.foldl_append, List.foldl_cons, List.foldl_nil]
    generalize (List.range n).foldl (storeAgain selected) f = g at hrc hplaces ⊢
    rw [storeAgain]
    split_ifs with hg
    · refine ⟨hrc.trans ⟨fun j ↦ size_storeAddress _ _ _ j, fun j ↦ flags_storeAddress _ _ _ j,
        fun hbare ↦ ?_⟩, hplaces⟩
      exact absurd (hbare n hn).1 (hsel g n hg)
    · exact ⟨hrc, hplaces⟩

theorem rewritten_storeBars (f : PlacedFunction) :
    Rewritten f.rc (storeBars f).rc ∧ (storeBars f).places = f.places :=
  rewritten_storeAgain (fun _ _ h ↦ h.1) pciStdNumBars (Nat.le_refl _) f

theorem hasResource_loop (f : PlacedFunction) :
    Rewritten f.rc ((List.range pciStdNumBars).foldl (storeAgain HasResource) f).rc ∧
      ((List.range pciStdNumBars).foldl (storeAgain HasResource) f).places = f.places := by
  refine rewritten_storeAgain (fun f i h ↦ ?_) pciStdNumBars (Nat.le_refl _) f
  intro hzero
  have hpos := h.1
  rw [hzero] at hpos
  exact absurd hpos (by decide)

theorem rewritten_busInitResources {host : Host} (hassign : ∀ v, Rewritten v (host.assign v))
    (f : PlacedFunction) : Rewritten f.rc (pciemBusInitResources host f).rc ∧
      (pciemBusInitResources host f).places = f.places := by
  have hloop := hasResource_loop f
  rw [pciemBusInitResources]
  dsimp only
  generalize (List.range pciStdNumBars).foldl (storeAgain HasResource) f = g at hloop ⊢
  split
  · exact ⟨hloop.1.trans (hassign g.rc), hloop.2⟩
  · exact ⟨.refl f.rc, rfl⟩

theorem rewritten_busInit (sv : Services) (slotZero : Bool) (f : PlacedFunction) :
    Rewritten f.rc (busInit sv slotZero f).rc ∧ (busInit sv slotZero f).places = f.places := by
  have hscan (v : PciemRootComplex) : Rewritten v ((Services.host sv slotZero).scan v) :=
    rewritten_applyWrites sv.scanWrites v
  have hassign (v : PciemRootComplex) : Rewritten v ((Services.host sv slotZero).assign v) :=
    rewritten_applyWrites sv.assignWrites v
  rw [busInit]
  dsimp only
  generalize Services.host sv slotZero = host at hscan hassign ⊢
  have hresources := rewritten_busInitResources hassign { f with rc := host.scan f.rc }
  generalize pciemBusInitResources host { f with rc := host.scan f.rc } = g at hresources ⊢
  exact ⟨((hscan f.rc).trans hresources.1).trans (hassign g.rc), hresources.2⟩

theorem bars_buildFunction (numFuncs k : ℕ) (f : PlacedFunction) :
    (buildFunction numFuncs k f).rc.bars = f.rc.bars ∧
      (buildFunction numFuncs k f).places = f.places := by
  have hbuild (v : PciemRootComplex) :
      (pciemBuildConfigSpace v).bars = v.bars := by
    rw [pciemBuildConfigSpace]
    split
    · rfl
    · split
      · rfl
      · rfl
  rw [buildFunction]
  split
  · rw [pciemSetMultifunction]
    split
    · exact ⟨hbuild f.rc, rfl⟩
    · exact ⟨hbuild f.rc, rfl⟩
  · exact ⟨hbuild f.rc, rfl⟩

end Loops

/-- What a function that is being initialised still has in common with what it was. -/
structure Prepared (f g : PlacedFunction) : Prop where
  rc : Rewritten f.rc g.rc
  carved : ∀ j, (g.places j).carvedStart = (f.places j).carvedStart
  allocated : ∀ j, (f.places j).allocatedRes = true → (g.places j).allocatedRes = true
  places : Bare f.rc → g.places = f.places

section Prepared

variable {f g h : PlacedFunction}

theorem Prepared.of_rewritten (hrc : Rewritten f.rc g.rc) (hplaces : g.places = f.places) :
    Prepared f g :=
  ⟨hrc, fun j ↦ by rw [hplaces], fun j hj ↦ by rw [hplaces, hj], fun _ ↦ hplaces⟩

theorem Prepared.refl (f : PlacedFunction) : Prepared f f := .of_rewritten (.refl f.rc) rfl

theorem Prepared.trans (hfg : Prepared f g) (hgh : Prepared g h) : Prepared f h where
  rc := hfg.rc.trans hgh.rc
  carved j := (hgh.carved j).trans (hfg.carved j)
  allocated j hj := hgh.allocated j (hfg.allocated j hj)
  places hbare := (hgh.places (hfg.rc.isBare hbare)).trans (hfg.places hbare)

theorem prepared_completeInitBar {resource : ℕ → Except Errno Unit} {i : ℕ}
    (hi : i < pciStdNumBars) (hok : completeInitBar resource f i = .ok g) : Prepared f g := by
  rw [completeInitBar] at hok
  split_ifs at hok with hsize hupper hcarved
  · cases hok
    exact .refl f
  · cases hok
    exact .refl f
  · split at hok
    · cases hok
    · cases hok
      refine ⟨⟨fun j ↦ size_storeAddress _ _ _ j, fun j ↦ flags_storeAddress _ _ _ j,
        fun hbare ↦ absurd (hbare i hi).1 hsize⟩, fun j ↦ ?_, fun j hj ↦ ?_,
        fun hbare ↦ absurd (hbare i hi).1 hsize⟩
      · dsimp only
        by_cases hji : j = i
        · rw [hji, Function.update_self]
        · rw [Function.update_of_ne hji]
      · dsimp only
        by_cases hji : j = i
        · rw [hji, Function.update_self]
        · rw [Function.update_of_ne hji]
          exact hj

end Prepared

variable {δ : Type} {sv : Services} {k : ℕ} {s : FunctionState δ}

section Prepare

theorem prepared_prepareBar (sv : Services) {i : ℕ} (hi : i < pciStdNumBars) (s : FunctionState δ) :
    Prepared s.2.placed (prepareBar sv i s).2.2.placed := by
  rw [prepareBar]
  split
  · rename_i hok
    exact prepared_completeInitBar hi hok
  · exact .refl _

theorem prepared_prepare (sv : Services) (s : FunctionState δ) :
    Prepared s.2.placed (prepare sv s).2.2.placed := by
  let P : FunctionState δ → Prop := fun s' ↦ Prepared s.2.placed s'.2.placed
  have hbar (i : ℕ) (hi : i ∈ List.range pciStdNumBars) : Triple P (prepareBar sv i) P P := by
    have hstep (s' : FunctionState δ) := prepared_prepareBar sv (List.mem_range.mp hi) s'
    exact ⟨fun s' hs' _ ↦ hs'.trans (hstep s'), fun s' _ hs' _ ↦ hs'.trans (hstep s')⟩
  have hreserve : Triple P (pciemReserveBarsRes sv) P P := by
    have hsame (s' : FunctionState δ) : (pciemReserveBarsRes sv s').2 = s' := by
      obtain ⟨r, heq⟩ := forEach_reserveBar sv (List.range pciStdNumBars) s'
      rw [pciemReserveBarsRes, heq]
    exact ⟨fun s' hs' _ ↦ (hsame s').symm ▸ hs', fun s' _ hs' _ ↦ (hsame s').symm ▸ hs'⟩
  have htriple : Triple P (prepare sv) P P := (Triple.forEach hbar).andThen hreserve
  cases hresult : (prepare sv s).1 with
  | ok _ => exact htriple.ok s (.refl _) hresult
  | error e => exact htriple.error s e (.refl _) hresult

/-- Every exposed BAR has its memory, and the kernel makes what the BAR needs. -/
def Prepares (sv : Services) (f : PlacedFunction) : Prop :=
  ∀ i < pciStdNumBars, Exposed f.rc i →
    (f.places i).carvedStart ≠ 0 ∧ sv.resource i = .ok () ∧ sv.entry i = true

theorem prepares_congr {f g : PlacedFunction} (hbars : g.rc.bars = f.rc.bars)
    (hplaces : g.places = f.places) : Prepares sv g ↔ Prepares sv f := by
  have hexposed := (Rewritten.of_bars_eq hbars).exposed_iff
  rw [Prepares, Prepares, hplaces]
  exact forall₂_congr fun i _ ↦ by rw [hexposed]

theorem prepareBar_ok_iff {i : ℕ} : (prepareBar sv i s).1 = .ok () ↔
    (Exposed s.2.placed.rc i →
      (s.2.placed.places i).carvedStart ≠ 0 ∧ sv.resource i = .ok ()) := by
  rw [prepareBar, completeInitBar, Exposed]
  dsimp only
  split_ifs with hsize hupper hcarved
  · exact iff_of_true rfl fun hexp ↦ absurd hsize hexp.1
  · exact iff_of_true rfl fun hexp ↦ absurd hupper hexp.2
  · exact iff_of_false (by simp) fun hexp ↦ (hexp ⟨hsize, hupper⟩).1 hcarved
  · cases sv.resource i with
    | error e =>
      refine iff_of_false (by simp) fun hexp ↦ ?_
      cases (hexp ⟨hsize, hupper⟩).2
    | ok _ => exact iff_of_true rfl fun _ ↦ ⟨hcarved, rfl⟩

theorem allocatedRes_prepareBar {i : ℕ} (h : (prepareBar sv i s).1 = .ok ())
    (hexp : Exposed s.2.placed.rc i) :
    ((prepareBar sv i s).2.2.placed.places i).allocatedRes = true := by
  obtain ⟨hcarved, hresource⟩ := prepareBar_ok_iff.mp h hexp
  rw [prepareBar, completeInitBar, if_neg hexp.1, if_neg hexp.2, if_neg hcarved, hresource]
  dsimp only
  rw [Function.update_self]

theorem forEach_prepareBar_ok_iff (sv : Services) (is : List ℕ)
    (his : ∀ i ∈ is, i < pciStdNumBars) :
    (forEach (prepareBar sv) is s).1 = .ok () ↔
      ∀ i ∈ is, Exposed s.2.placed.rc i →
        (s.2.placed.places i).carvedStart ≠ 0 ∧ sv.resource i = .ok () := by
  induction is generalizing s with
  | nil => exact iff_of_true rfl fun _ hi ↦ nomatch hi
  | cons i is ih =>
    have hprepared := prepared_prepareBar sv (his i List.mem_cons_self) s
    rw [forEach, andThen_ok_iff, prepareBar_ok_iff,
      ih fun j hj ↦ his j (List.mem_cons_of_mem i hj), List.forall_mem_cons]
    refine and_congr_right fun _ ↦ forall₂_congr fun j _ ↦ ?_
    rw [hprepared.rc.exposed_iff, hprepared.carved]

/-- After the loop, the exposed BARs have their resources. -/
theorem prepared_forEach (is : List ℕ) (his : ∀ i ∈ is, i < pciStdNumBars)
    (h : (forEach (prepareBar sv) is s).1 = .ok ()) :
    Prepared s.2.placed (forEach (prepareBar sv) is s).2.2.placed ∧
      ∀ i ∈ is, Exposed s.2.placed.rc i →
        ((forEach (prepareBar sv) is s).2.2.placed.places i).allocatedRes = true := by
  induction is generalizing s with
  | nil => exact ⟨.refl _, fun _ hi ↦ nomatch hi⟩
  | cons i is ih =>
    have hprepared := prepared_prepareBar sv (his i List.mem_cons_self) s
    obtain ⟨hi, hrest⟩ := andThen_ok_iff.mp h
    obtain ⟨hprepared', hallocated⟩ := ih (fun j hj ↦ his j (List.mem_cons_of_mem i hj)) hrest
    rw [forEach, andThen_of_ok hi]
    refine ⟨hprepared.trans hprepared', fun j hj hexp ↦ ?_⟩
    rcases List.mem_cons.mp hj with rfl | hj
    · exact hprepared'.allocated j (allocatedRes_prepareBar hi hexp)
    · exact hallocated j hj ((hprepared.rc.exposed_iff j).mpr hexp)

theorem reserveBars_ok_iff (is : List ℕ) : (forEach (reserveBar sv) is s).1 = .ok () ↔
    ∀ i ∈ is, Exposed s.2.placed.rc i → (s.2.placed.places i).allocatedRes = true →
      sv.entry i = true := by
  induction is with
  | nil => exact iff_of_true rfl fun _ hi ↦ nomatch hi
  | cons i is ih =>
    have hi : (reserveBar sv i s).1 = .ok () ↔ (Exposed s.2.placed.rc i →
        (s.2.placed.places i).allocatedRes = true → sv.entry i = true) := by
      rw [reserveBar]
      split_ifs with hres
      · obtain ⟨hexp, hallocated, hentry⟩ := hres
        refine iff_of_false nofun fun h ↦ ?_
        rw [h hexp hallocated] at hentry
        cases hentry
      · refine iff_of_true rfl fun hexp hallocated ↦ ?_
        by_contra hentry
        exact hres ⟨hexp, hallocated, Bool.not_eq_true _ ▸ hentry⟩
    have hsame : (reserveBar sv i s).2 = s := by
      rw [reserveBar]
      split
      · rfl
      · rfl
    rw [forEach, andThen_ok_iff, hsame, hi, ih, List.forall_mem_cons]

theorem prepare_ok_iff : (prepare sv s).1 = .ok () ↔ Prepares sv s.2.placed := by
  have hrange : ∀ i ∈ List.range pciStdNumBars, i < pciStdNumBars :=
    fun i hi ↦ List.mem_range.mp hi
  have hbars := forEach_prepareBar_ok_iff (s := s) sv (List.range pciStdNumBars) hrange
  rw [prepare, andThen_ok_iff, pciemReserveBarsRes, reserveBars_ok_iff]
  constructor
  · rintro ⟨hok, hentry⟩ i hi hexp
    obtain ⟨hprepared, hallocated⟩ := prepared_forEach _ hrange hok
    obtain ⟨hcarved, hresource⟩ := hbars.mp hok i (List.mem_range.mpr hi) hexp
    exact ⟨hcarved, hresource, hentry i (List.mem_range.mpr hi)
      ((hprepared.rc.exposed_iff i).mpr hexp) (hallocated i (List.mem_range.mpr hi) hexp)⟩
  · intro h
    have hok := hbars.mpr fun i hi hexp ↦
      ⟨(h i (hrange i hi) hexp).1, (h i (hrange i hi) hexp).2.1⟩
    obtain ⟨hprepared, -⟩ := prepared_forEach _ hrange hok
    exact ⟨hok, fun i hi hexp _ ↦
      (h i (hrange i hi) ((hprepared.rc.exposed_iff i).mp hexp)).2.2⟩

end Prepare

section Mode

/-- The root complex that has taken over a slot of the bus of the host. -/
def hijacked (s : FunctionState δ) (slot : Attach.Hijack.Slot) (placed : PlacedFunction) :
    State.PciemRootComplex δ :=
  { s.2 with
    siblingFuncs := Function.update s.2.siblingFuncs 0 (some s.2.address)
    hijack := ⟨slot, some s.1.ops⟩
    placed }

/-- How far the initialisation of a function on the bus of the host gets. -/
inductive HostInit (sv : Services) (k : ℕ) (s : FunctionState δ) :
    Except Errno Unit × FunctionState δ → Prop
  | early {e : Errno} : sv.found.bus = false ∨ k ≠ 0 ∨ sv.found.slot = none →
      HostInit sv k s (.error e, s)
  | noDevice {slot : Attach.Hijack.Slot} {placed : PlacedFunction} :
      Prepared s.2.placed placed → k = 0 → sv.found.scan = false →
      HostInit sv k s (.error .enodev, s.1, hijacked s slot placed)
  | done {slot : Attach.Hijack.Slot} {placed : PlacedFunction} :
      Prepared s.2.placed placed → sv.found.bus = true → k = 0 → sv.found.slot = some slot →
      sv.found.scan = true →
      HostInit sv k s (.ok (),
        { s.1 with ops := .proxy s.2.address }.scanSingle ⟨.host, pciDevfn slot 0⟩,
        { hijacked s slot placed with
          pciemPdev := some ⟨.host, pciDevfn slot 0⟩
          rootBus := some .host })

theorem hostInit_initAttach (sv : Services) (k : ℕ) (s : FunctionState δ) :
    HostInit sv k s (pciemInitAttachToHostMode sv k s) := by
  rw [pciemInitAttachToHostMode]
  by_cases hbus : sv.found.bus = false
  · rw [if_pos hbus]
    exact .early (.inl hbus)
  rw [if_neg hbus]
  by_cases hk : k ≠ 0
  · rw [if_pos hk]
    exact .early (.inr (.inl hk))
  rw [if_neg hk]
  cases hslot : sv.found.slot with
  | none => exact .early (.inr (.inr hslot))
  | some slot =>
    have hstore := rewritten_storeBars s.2.placed
    dsimp only
    generalize storeBars s.2.placed = g at hstore ⊢
    have hscan := rewritten_applyWrites sv.scanWrites g.rc
    have hprepared : Prepared s.2.placed
        { g with rc := sv.scanWrites.foldl applyWrite g.rc } :=
      .of_rewritten (hstore.1.trans hscan) hstore.2
    split
    · rename_i hfound
      exact .done hprepared (Bool.not_eq_false _ ▸ hbus) (not_not.mp hk) hslot hfound
    · rename_i hfound
      exact .noDevice hprepared (not_not.mp hk) (Bool.not_eq_true _ ▸ hfound)

theorem prepared_initVirtual (sv : Services) (k : ℕ) (s : FunctionState δ) :
    Prepared s.2.placed (pciemInitVirtualRootMode sv k s).2.2.placed := by
  rw [pciemInitVirtualRootMode]
  split
  · exact .refl _
  · obtain ⟨hrc, hplaces⟩ := rewritten_busInit sv ((s.1.scanRootBus
      (Function.update (fun _ ↦ none) k (some s.2.address)) sv.created).getSlot
        (.root s.1.nextBus) 0).isSome s.2.placed
    exact .of_rewritten hrc hplaces

/-- What the part that depends on the mode leaves of the BARs and of the pool. -/
theorem prepared_initMode (sv : Services) (k : ℕ) (s : FunctionState δ) :
    Prepared s.2.placed (initMode sv k s).2.2.placed ∧
      (initMode sv k s).2.1.pool = s.1.pool := by
  cases hmode : s.2.busMode with
  | virtualRoot =>
    rw [initMode_of_virtual hmode]
    refine ⟨prepared_initVirtual sv k s, ?_⟩
    cases hbridge : sv.bridge with
    | error e => rw [initVirtual_of_error hbridge]
    | ok _ => exact (onOwnBus_initVirtual hbridge k s).1.pool
  | attachToHost =>
    rw [initMode_of_attach hmode]
    have hinit := hostInit_initAttach sv k s
    generalize pciemInitAttachToHostMode sv k s = result at hinit ⊢
    cases hinit with
    | early => exact ⟨.refl _, rfl⟩
    | noDevice hprepared => exact ⟨hprepared, rfl⟩
    | done hprepared => exact ⟨hprepared, rfl⟩

end Mode

end Pciem.Slot.Bars
