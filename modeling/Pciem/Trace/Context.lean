import Mathlib.Tactic.SplitIfs
import Pciem.Library.ByteMemory
import Pciem.Ring.SharedRing

namespace Pciem.Trace.Context

open Library.ByteMemory Ring.SharedRing

/-- Which of the hooks `pciem_notif_read` and `pciem_notif_write` are set. -/
structure SmptraceNotifier where
  read : Bool
  write : Bool

/-- `bar` is what `opaque` has. -/
structure SmptraceCtx where
  notif : SmptraceNotifier
  bar : BitVec 64
  pa : BitVec 64
  len : BitVec 64
  stopWrites : Bool

structure SmptraceMap where
  va : BitVec 64
  len : BitVec 64
  pa : BitVec 64
deriving DecidableEq

/-- `data` has the bytes of the union. -/
structure SmptraceIo where
  offset : BitVec 64
  data : Memory
  size : ℕ

/-- What an access to a traced BAR works on: `us` tells whether `tracer->us` is set, and `stack` is
what a variable that is not initialised has. `pushes` has the events that the ring has been given,
and whether it has taken them. -/
structure Traced where
  us : Bool
  ring : PciemSharedRing
  shadow : Memory
  stack : SmptraceIo
  pushes : List (PciemEvent × Bool)

/-- The events that are in the ring, or have been there. -/
def Traced.queued (s : Traced) : List PciemEvent := (s.pushes.filter (·.2)).map (·.1)

/-- The sizes that the members of `union smptrace_data` have. -/
def sizes : List ℕ := [1, 2, 4, 8]

def pciemEventMmioRead : UInt32 := 1

def pciemEventMmioWrite : UInt32 := 2

/-- There is no result where the kernel runs into `BUG`. -/
def fillIoNotif (io : SmptraceIo) (data : List (BitVec 8)) (size : ℕ) (off : BitVec 64) :
    Option SmptraceIo :=
  if size ∈ sizes then some ⟨off, store io.data 0 (data.take size), size⟩ else none

/-- An event that the ring is too full for is dropped. -/
def pciemUserspaceQueueEvent (ev : PciemEvent) (s : Traced) : Traced :=
  if s.us then
    let (pushed, ring) := pciemSharedRingPush s.ring ev
    { s with ring, pushes := s.pushes ++ [(ev, pushed)] }
  else
    s

def traceEvent (ctx : SmptraceCtx) (evType : UInt32) (off : BitVec 64) (size : ℕ)
    (data : BitVec 64) : PciemEvent where
  seq := 0
  type := evType
  bar := ⟨ctx.bar.setWidth 32⟩
  offset := ⟨off⟩
  size := UInt32.ofNat size
  reserved := 0
  data := ⟨data⟩
  timestamp := 0

def pciemNotifTrace (ctx : SmptraceCtx) (io : SmptraceIo) (evType : UInt32) (s : Traced) :
    Option Traced :=
  if io.size ∈ sizes then
    some (pciemUserspaceQueueEvent
      (traceEvent ctx evType io.offset io.size (load io.data 0 io.size)) s)
  else
    none

/-- The offset in the BAR of an address that a map has. -/
def barOffset (ctx : SmptraceCtx) (map : SmptraceMap) (addr : BitVec 64) : BitVec 64 :=
  (map.pa - ctx.pa) + (addr - map.va)

/-- What `BUG_ON` looks for. -/
def OutOfBar (ctx : SmptraceCtx) (off : BitVec 64) (size : ℕ) : Prop :=
  off ≥ ctx.len ∨ off + BitVec.ofNat 64 size > ctx.len

instance decidableOutOfBar (ctx : SmptraceCtx) (off : BitVec 64) (size : ℕ) :
    Decidable (OutOfBar ctx off size) := inferInstanceAs (Decidable (_ ∨ _))

/-- The bytes of the shadow from an offset on. -/
def Traced.peek (s : Traced) (off : BitVec 64) (size : ℕ) : List (BitVec 8) :=
  (List.range size).map fun k ↦ s.shadow (off.toNat + k)

def smptraceEmulateRead (ctx : SmptraceCtx) (map : SmptraceMap) (addr : BitVec 64) (size : ℕ)
    (s : Traced) : Option (List (BitVec 8) × Traced) :=
  let off := barOffset ctx map addr
  if OutOfBar ctx off size then
    none
  else
    let dst := s.peek off size
    if ctx.notif.read then do
      let io ← fillIoNotif s.stack dst size off
      let s ← pciemNotifTrace ctx io pciemEventMmioRead { s with stack := io }
      some (dst, s)
    else
      some (dst, s)

/-- The shadow with the bytes of a write, unless writes are stopped. -/
def Traced.poke (s : Traced) (ctx : SmptraceCtx) (off : BitVec 64) (src : List (BitVec 8)) :
    Traced :=
  if ctx.stopWrites then s else { s with shadow := store s.shadow off.toNat src }

/-- `struct smptrace_io io = {0}` -/
def SmptraceIo.zero : SmptraceIo := ⟨0, fun _ ↦ 0, 0⟩

def smptraceEmulateWrite (ctx : SmptraceCtx) (map : SmptraceMap) (addr : BitVec 64) (size : ℕ)
    (src : List (BitVec 8)) (s : Traced) : Option Traced :=
  let off := barOffset ctx map addr
  if OutOfBar ctx off size then
    none
  else
    let s := s.poke ctx off (src.take size)
    if ctx.notif.write then do
      let io ← fillIoNotif .zero src size off
      pciemNotifTrace ctx io pciemEventMmioWrite s
    else
      some s

/-- The event is queued where its hook is set. -/
def Traced.notified (s : Traced) (hook : Bool) (ev : PciemEvent) : Traced :=
  if hook then pciemUserspaceQueueEvent ev s else s

/-- Whether the ring takes one more event. -/
def Room (ring : PciemSharedRing) : Prop := nextIndex ring.tail ≠ ring.head

instance decidableRoom (ring : PciemSharedRing) : Decidable (Room ring) := instDecidableNot

/-- The BAR has all the bytes of the access. -/
def InBar (ctx : SmptraceCtx) (off : BitVec 64) (size : ℕ) : Prop :=
  off.toNat + size ≤ ctx.len.toNat

instance decidableInBar (ctx : SmptraceCtx) (off : BitVec 64) (size : ℕ) :
    Decidable (InBar ctx off size) := Nat.decLe _ _

section Notified

variable (s : Traced) (hook : Bool) (ev : PciemEvent)

@[simp]
theorem shadow_notified : (s.notified hook ev).shadow = s.shadow := by
  unfold Traced.notified pciemUserspaceQueueEvent
  split_ifs
  · rfl
  · rfl
  · rfl

@[simp]
theorem us_notified : (s.notified hook ev).us = s.us := by
  unfold Traced.notified pciemUserspaceQueueEvent
  split_ifs
  · rfl
  · rfl
  · rfl

theorem push_fst (ring : PciemSharedRing) :
    (pciemSharedRingPush ring ev).1 = decide (Room ring) := by
  unfold pciemSharedRingPush Room
  by_cases h : nextIndex ring.tail = ring.head
  · simp [h]
  · simp [h]

@[simp]
theorem pushes_notified : (s.notified hook ev).pushes =
    s.pushes ++ if hook ∧ s.us then [(ev, decide (Room s.ring))] else [] := by
  unfold Traced.notified pciemUserspaceQueueEvent
  cases hook with
  | false => simp
  | true =>
    cases s.us with
    | false => simp
    | true => simp [push_fst]

theorem ring_notified (hhook : hook = true) (hus : s.us = true) :
    (s.notified hook ev).ring = (pciemSharedRingPush s.ring ev).2 := by
  unfold Traced.notified pciemUserspaceQueueEvent
  rw [if_pos hhook, if_pos hus]

end Notified

section Emulate

variable {ctx : SmptraceCtx} {map : SmptraceMap} {addr off : BitVec 64} {size : ℕ}

theorem pos_of_mem_sizes (h : size ∈ sizes) : 0 < size := by
  simp only [sizes, List.mem_cons, List.not_mem_nil, or_false] at h
  omega

theorem le_of_mem_sizes (h : size ∈ sizes) : size ≤ 8 := by
  simp only [sizes, List.mem_cons, List.not_mem_nil, or_false] at h
  omega

theorem not_outOfBar (h : InBar ctx off size) (hsize : 0 < size) : ¬ OutOfBar ctx off size := by
  unfold InBar at h
  unfold OutOfBar
  have := ctx.len.isLt
  simp only [ge_iff_le, gt_iff_lt, BitVec.le_def, BitVec.lt_def, BitVec.toNat_add,
    BitVec.toNat_ofNat]
  omega

/-- What a hook reads of the union is what has been put there. -/
theorem fillIoNotif_eq (ctx : SmptraceCtx) (off : BitVec 64) (hsize : size ∈ sizes)
    (io : SmptraceIo) {data : List (BitVec 8)}
    (hdata : data.length = size) :
    ∃ io', fillIoNotif io data size off = some io' ∧
      ∀ evType s, pciemNotifTrace ctx io' evType s = some (pciemUserspaceQueueEvent
        (traceEvent ctx evType off size (compose (data.map (BitVec.setWidth 64)))) s) := by
  have hload : (load (store io.data 0 data) 0 size : BitVec 64) =
      compose (data.map (BitVec.setWidth 64)) := by
    rw [load_eq_compose]
    congr 2
    apply List.ext_getElem
    · simp [hdata]
    · intro k hk hk'
      simp only [List.getElem_map, List.getElem_range]
      exact store_inside hk'
  refine ⟨⟨off, store io.data 0 data, size⟩, ?_, fun evType s ↦ ?_⟩
  · simp [fillIoNotif, hsize, List.take_of_length_le hdata.le]
  · simp [pciemNotifTrace, hsize, hload]

theorem length_peek (s : Traced) (off : BitVec 64) (size : ℕ) :
    (s.peek off size).length = size := by
  simp [Traced.peek]

theorem compose_peek (s : Traced) (off : BitVec 64) (size : ℕ) :
    compose ((s.peek off size).map (BitVec.setWidth 64)) = load s.shadow off.toNat size :=
  (load_eq_compose s.shadow off.toNat size).symm

/-- A read in the BAR gives what the shadow has, and reports it. -/
theorem emulateRead_eq (hsize : size ∈ sizes) (hout : ¬ OutOfBar ctx (barOffset ctx map addr) size)
    (s : Traced) : ∃ stack, smptraceEmulateRead ctx map addr size s =
      some (s.peek (barOffset ctx map addr) size, { s with stack }.notified ctx.notif.read
        (traceEvent ctx pciemEventMmioRead (barOffset ctx map addr) size
          (load s.shadow (barOffset ctx map addr).toNat size))) := by
  simp only [smptraceEmulateRead, hout, if_false]
  cases hread : ctx.notif.read with
  | false => exact ⟨s.stack, rfl⟩
  | true =>
    obtain ⟨io, hio, hnotif⟩ := fillIoNotif_eq ctx (barOffset ctx map addr) hsize s.stack
      (length_peek s (barOffset ctx map addr) size)
    refine ⟨io, ?_⟩
    simp [hio, hnotif, compose_peek, Traced.notified]

/-- A write in the BAR leaves its bytes in the shadow, and reports them. -/
theorem emulateWrite_eq (hsize : size ∈ sizes)
    (hout : ¬ OutOfBar ctx (barOffset ctx map addr) size) {src : List (BitVec 8)}
    (hsrc : src.length = size) (s : Traced) :
    smptraceEmulateWrite ctx map addr size src s =
      some ((s.poke ctx (barOffset ctx map addr) src).notified ctx.notif.write
        (traceEvent ctx pciemEventMmioWrite (barOffset ctx map addr) size
          (compose (src.map (BitVec.setWidth 64))))) := by
  simp only [smptraceEmulateWrite, hout, if_false, List.take_of_length_le hsrc.le]
  cases hwrite : ctx.notif.write with
  | false => rfl
  | true =>
    obtain ⟨io, hio, hnotif⟩ := fillIoNotif_eq ctx (barOffset ctx map addr) hsize .zero hsrc
    simp [hio, hnotif, Traced.notified]

end Emulate

section Window

variable {ctx : SmptraceCtx} {map : SmptraceMap} {addr : BitVec 64} {size : ℕ}

theorem toNat_barOffset (hpa : ctx.pa.toNat ≤ map.pa.toNat) (hva : map.va.toNat ≤ addr.toNat)
    (hlt : map.pa.toNat - ctx.pa.toNat + (addr.toNat - map.va.toNat) < 2 ^ 64) :
    (barOffset ctx map addr).toNat =
      map.pa.toNat - ctx.pa.toNat + (addr.toNat - map.va.toNat) := by
  rw [barOffset, BitVec.toNat_add, BitVec.toNat_sub_of_le hpa, BitVec.toNat_sub_of_le hva]
  exact Nat.mod_eq_of_lt hlt

/-- The BAR has all the bytes of an access to an address of the map. -/
structure Inside (ctx : SmptraceCtx) (map : SmptraceMap) (addr : BitVec 64) (size : ℕ) : Prop where
  pa_le : ctx.pa.toNat ≤ map.pa.toNat
  va_le : map.va.toNat ≤ addr.toNat
  fits : map.pa.toNat - ctx.pa.toNat + (addr.toNat - map.va.toNat) + size ≤ ctx.len.toNat

/-- The BAR as it is seen through the map. -/
def window (ctx : SmptraceCtx) (map : SmptraceMap) (shadow : Memory) : Memory :=
  fun addr ↦ if map.va.toNat ≤ addr then
    shadow (map.pa.toNat - ctx.pa.toNat + (addr - map.va.toNat)) else 0

theorem Inside.toNat_barOffset (h : Inside ctx map addr size) : (barOffset ctx map addr).toNat =
    map.pa.toNat - ctx.pa.toNat + (addr.toNat - map.va.toNat) := by
  have hfits := h.fits
  have := ctx.len.isLt
  exact Context.toNat_barOffset h.pa_le h.va_le (by omega)

theorem Inside.not_outOfBar (h : Inside ctx map addr size) (hsize : size ∈ sizes) :
    ¬ OutOfBar ctx (barOffset ctx map addr) size := by
  refine Context.not_outOfBar ?_ (pos_of_mem_sizes hsize)
  rw [InBar, h.toNat_barOffset]
  exact h.fits

theorem load_window {w : ℕ} (h : Inside ctx map addr size) (shadow : Memory) :
    (load (window ctx map shadow) addr.toNat size : BitVec w) =
      load shadow (barOffset ctx map addr).toNat size := by
  have hle := h.va_le
  rw [h.toNat_barOffset, load, load]
  congr 1
  refine List.map_congr_left fun k _ ↦ ?_
  rw [window, if_pos (by omega),
    show map.pa.toNat - ctx.pa.toNat + (addr.toNat + k - map.va.toNat) =
      map.pa.toNat - ctx.pa.toNat + (addr.toNat - map.va.toNat) + k by omega]

theorem shadow_poke (s : Traced) (ctx : SmptraceCtx) (off : BitVec 64) (src : List (BitVec 8)) :
    (s.poke ctx off src).shadow =
      if ctx.stopWrites then s.shadow else store s.shadow off.toNat src := by
  unfold Traced.poke
  split_ifs
  · rfl
  · rfl

theorem window_store (h : Inside ctx map addr size) (shadow : Memory) (bs : List (BitVec 8)) :
    window ctx map (store shadow (barOffset ctx map addr).toNat bs) =
      store (window ctx map shadow) addr.toNat bs := by
  have hle := h.va_le
  rw [h.toNat_barOffset]
  funext q
  by_cases hq : map.va.toNat ≤ q
  · simp only [window, store, if_pos hq]
    by_cases hlt : addr.toNat ≤ q
    · rw [if_pos (by omega), if_pos hlt]
      congr 1
      omega
    · rw [if_neg (by omega), if_neg hlt]
  · rw [window, if_neg hq, store, if_neg (by omega), window, if_neg hq]

end Window

section Page

/-- A BAR that is a page, with both hooks. -/
def page : SmptraceCtx := ⟨⟨true, true⟩, 0, 0x10000000, 0x1000, false⟩

def pageMap : SmptraceMap := ⟨0x5000, 0x1000, 0x10000000⟩

/-- The BAR has the same byte everywhere. -/
def filled (b : BitVec 8) : Traced := ⟨true, pciemSharedRingAlloc, fun _ ↦ b, .zero, []⟩

end Page

end Pciem.Trace.Context
