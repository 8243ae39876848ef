import Pciem.Attach.Hijack

namespace Pciem.Attach.Routing

open Kernel Library.Loop Hijack

variable {δ : Type*} [DecidableEq δ]

/-- A function 0 and the slot that was found for it. -/
abbrev Placed (δ : Type*) := δ × Slot

/-- The devices are attached one after the other; the head of the list is the last one. -/
def attachAll (host : HostBus δ) : List (Placed δ) → HostBus δ
  | [] => host
  | d :: ds => attach (attachAll host ds) d.1 ⟨true, some d.2, true⟩

/-- An access to a slot of an attached device gets to that device, and one to any other slot to
the hardware. -/
def Routed (host : HostBus δ) (ds : List (Placed δ)) (devfn : ℕ) : Prop :=
  (∀ d ∈ ds, d.2 = pciSlot devfn → Served host d.1 devfn) ∧
    ((∀ d ∈ ds, d.2 ≠ pciSlot devfn) → PassedOn host devfn)

/-- The function of the device for the access. -/
def functionOf (host : HostBus δ) (d : δ) (devfn : ℕ) : Option δ :=
  if pciFunc devfn = 0 then some d else (host.rc d).siblingFuncs (pciFunc devfn)

/-- At most one device is attached, or the slot is that of the one attached last, which shares
it with no device that would answer otherwise. -/
def Direct (host : HostBus δ) (devfn : ℕ) : List (Placed δ) → Prop
  | [] => True
  | [_] => True
  | last :: ds => last.2 = pciSlot devfn ∧
      ∀ d ∈ ds, d.2 = pciSlot devfn → functionOf host d.1 devfn = functionOf host last.1 devfn

section Stack

variable {host : HostBus δ} {d : Placed δ} {ds : List (Placed δ)} {devfn : ℕ}

theorem attachAll_cons (host : HostBus δ) (d : Placed δ) (ds : List (Placed δ)) :
    attachAll host (d :: ds) = ⟨.proxy d.1, Function.update (attachAll host ds).rc d.1
      (hijackedRc (attachAll host ds) d.1 d.2 true)⟩ :=
  attach_success _ _ _

theorem rc_of_not_mem {v : δ} (h : v ∉ ds.map Prod.fst) :
    (attachAll host ds).rc v = host.rc v := by
  induction ds with
  | nil => rfl
  | cons d ds ih =>
    rw [List.map_cons, List.mem_cons, not_or] at h
    rw [attachAll_cons]
    exact (Function.update_of_ne h.1 _ _).trans (ih h.2)

theorem siblingFuncs_of_mem (hn : (ds.map Prod.fst).Nodup) (hd : d ∈ ds) :
    ((attachAll host ds).rc d.1).siblingFuncs (pciFunc devfn) =
      functionOf host d.1 devfn := by
  induction ds with
  | nil => exact absurd hd List.not_mem_nil
  | cons e ds ih =>
    rw [List.map_cons, List.nodup_cons] at hn
    rw [attachAll_cons]
    dsimp only
    rcases List.mem_cons.mp hd with rfl | hd
    · rw [Function.update_self, hijackedRc, functionOf, rc_of_not_mem hn.1]
      exact Function.update_apply _ _ _ _
    · have hne : d.1 ≠ e.1 := by
        intro heq
        exact hn.1 (heq ▸ List.mem_map_of_mem hd)
      rw [Function.update_of_ne hne]
      exact ih hn.2 hd

theorem attachAll_top (host : HostBus δ) (d : Placed δ) (ds : List (Placed δ)) :
    (attachAll host (d :: ds)).ops = .proxy d.1 ∧
      ((attachAll host (d :: ds)).rc d.1).hijack = ⟨d.2, some (attachAll host ds).ops⟩ := by
  rw [attachAll_cons]
  dsimp only
  rw [Function.update_self]
  exact ⟨rfl, rfl⟩

theorem served_last_iff {e : Placed δ} (hn : ((d :: ds).map Prod.fst).Nodup)
    (hslot : d.2 = pciSlot devfn) (he : e ∈ d :: ds) :
    Served (attachAll host (d :: ds)) e.1 devfn ↔
      functionOf host e.1 devfn = functionOf host d.1 devfn := by
  obtain ⟨hops, hhijack⟩ := attachAll_top host d ds
  have hown : pciSlot devfn = ((attachAll host (d :: ds)).rc d.1).hijack.hijackedSlot := by
    rw [hhijack]
    exact hslot.symm
  rw [Served]
  refine (and_congr (reaches_own_iff hops hown) (reaches_own_iff hops hown)).trans ?_
  rw [deviceAnswer, deviceAnswer, answerOf_inj, deviceAnswer, deviceAnswer, answerOf_inj,
    siblingFuncs_of_mem hn he, siblingFuncs_of_mem hn List.mem_cons_self, and_self]

/-- Under two proxies or more, an access that the last one does not answer never ends. -/
theorem not_reaches_under {e : Placed δ} {absent : Option (BitVec 32)} {answer : Answer δ}
    (hslot : d.2 ≠ pciSlot devfn) :
    ¬ Reaches (proxyConfig absent) (attachAll host (d :: e :: ds)) devfn answer := by
  obtain ⟨hops, hhijack⟩ := attachAll_top host d (e :: ds)
  have hbelow : ((attachAll host (d :: e :: ds)).rc d.1).hijack.originalOps =
      some (.proxy e.1) := by
    rw [hhijack, (attachAll_top host e ds).1]
  intro h
  refine not_terminates_of_original_proxy hops ?_ hbelow h.terminates
  rw [hhijack]
  exact hslot.symm

end Stack

/-- Reads and writes of a slot are routed as they should be exactly when no proxy has to call
the one below it. -/
theorem attach_routing_iff (host : HostBus δ) (hhost : host.ops = .hardware)
    {ds : List (Placed δ)} (hn : (ds.map Prod.fst).Nodup) (devfn : ℕ) :
    Routed (attachAll host ds) ds devfn ↔ Direct host devfn ds := by
  match ds with
  | [] =>
    refine iff_of_true ⟨fun d hd ↦ absurd hd List.not_mem_nil, fun _ ↦ ?_⟩ trivial
    exact ⟨reaches_hardware hhost, reaches_hardware hhost⟩
  | [d] =>
    refine iff_of_true ⟨fun e he hslot ↦ ?_, fun hslot ↦ ?_⟩ trivial
    · obtain rfl := List.mem_singleton.mp he
      exact (served_last_iff hn hslot he).mpr rfl
    · obtain ⟨hops, hhijack⟩ := attachAll_top host d []
      have hother := hslot d (List.mem_singleton_self d)
      have hne : pciSlot devfn ≠ ((attachAll host [d]).rc d.1).hijack.hijackedSlot := by
        rw [hhijack]
        exact hother.symm
      have hdown : ((attachAll host [d]).rc d.1).hijack.originalOps = some .hardware := by
        rw [hhijack]
        exact congrArg some hhost
      exact ⟨(reaches_of_original_hardware hops hne hdown).mpr rfl,
        (reaches_of_original_hardware hops hne hdown).mpr rfl⟩
  | d :: e :: ds =>
    change _ ↔ d.2 = pciSlot devfn ∧ ∀ x ∈ e :: ds, x.2 = pciSlot devfn →
      functionOf host x.1 devfn = functionOf host d.1 devfn
    by_cases hslot : d.2 = pciSlot devfn
    · have hcongr : ∀ x ∈ d :: e :: ds, Served (attachAll host (d :: e :: ds)) x.1 devfn ↔
          functionOf host x.1 devfn = functionOf host d.1 devfn :=
        fun x hx ↦ served_last_iff hn hslot hx
      constructor
      · intro h
        refine ⟨hslot, fun x hx hxslot ↦ ?_⟩
        have hmem := List.mem_cons_of_mem d hx
        exact (hcongr x hmem).mp (h.1 x hmem hxslot)
      · rintro ⟨-, h⟩
        refine ⟨fun x hx hxslot ↦ (hcongr x hx).mpr ?_, fun hnone ↦ ?_⟩
        · rcases List.mem_cons.mp hx with rfl | hx
          · rfl
          · exact h x hx hxslot
        · exact absurd hslot (hnone d List.mem_cons_self)
    · refine iff_of_false (fun h ↦ ?_) fun h ↦ hslot h.1
      by_cases hnone : ∀ x ∈ d :: e :: ds, x.2 ≠ pciSlot devfn
      · exact not_reaches_under hslot (h.2 hnone).1
      · rw [not_forall] at hnone
        obtain ⟨x, hx⟩ := hnone
        rw [Classical.not_imp, not_not] at hx
        exact not_reaches_under hslot (h.1 x hx.1 hx.2).1

/-- Slot 3, function 1 of a device attached in slot 3, with another one in slot 2 below it. -/
theorem attach_routing_iff_two_devices :
    Reaches proxyReadConfig (attachAll (pristine (δ := ℕ)) [(1, 3), (0, 2)]) 25
      (.notFound (some (BitVec.allOnes 32))) :=
  (((attach_routing_iff pristine rfl
    (show (([(1, 3), (0, 2)] : List (Placed ℕ)).map Prod.fst).Nodup by decide) 25).mpr
    ⟨by decide, by decide⟩).1 (1, 3) List.mem_cons_self (by decide)).1

/-- With a second device attached, a read of the first one never ends. -/
theorem second_attach_breaks_first : ¬ ∀ (ds : List (Placed ℕ)) (devfn : ℕ),
    (ds.map Prod.fst).Nodup → Routed (attachAll pristine ds) ds devfn := by
  intro h
  have hrouted := (h [(1, 2), (0, 1)] 8 (by decide)).1 (0, 1) (by decide) (by decide)
  have htop : (attachAll (pristine (δ := ℕ)) [(1, 2), (0, 1)]).ops = .proxy 1 := rfl
  have hbelow : ((attachAll pristine [(1, 2), (0, 1)]).rc 1).hijack.originalOps =
      some (.proxy 0) := rfl
  have hforever : ¬ Terminates (callOps proxyReadConfig (attachAll pristine [(1, 2), (0, 1)]) 8)
      (attachAll pristine [(1, 2), (0, 1)]).ops :=
    not_terminates_of_original_proxy htop (by decide) hbelow
  exact hforever hrouted.1.terminates

end Pciem.Attach.Routing
