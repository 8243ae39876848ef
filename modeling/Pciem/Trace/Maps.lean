import Mathlib.Data.List.Pairwise
import Pciem.Library.KeyedList
import Pciem.Library.Replay
import Pciem.Trace.Context

namespace Pciem.Trace.Maps

open Library.KeyedList Library.Replay Context

structure IoremapArgs where
  pa : BitVec 64
  len : BitVec 64

def Has (map : SmptraceMap) (va : BitVec 64) : Prop :=
  va ≥ map.va ∧ va < map.va + map.len

instance decidableHas (map : SmptraceMap) (va : BitVec 64) : Decidable (Has map va) :=
  inferInstanceAs (Decidable (_ ∧ _))

def smptraceFindMapRcu (maps : List SmptraceMap) (va : BitVec 64) : Option SmptraceMap :=
  maps.find? fun map ↦ Has map va

/-- The test that `smptrace_exit_ioremap` begins with. -/
def Starts (ctx : SmptraceCtx) (pa : BitVec 64) : Prop := ¬ (pa < ctx.pa ∨ pa ≥ ctx.pa + ctx.len)

instance decidableStarts (ctx : SmptraceCtx) (pa : BitVec 64) : Decidable (Starts ctx pa) :=
  inferInstanceAs (Decidable (¬ _))

/-- What `ioremap` returns in the end, and the maps. `kzalloc` and `poison` tell whether these
succeed. -/
def smptraceExitIoremap (ctx : SmptraceCtx) (kzalloc poison : Bool) (args : IoremapArgs)
    (va : BitVec 64) (maps : List SmptraceMap) : BitVec 64 × List SmptraceMap :=
  if ¬ Starts ctx args.pa then
    (va, maps)
  else if kzalloc = false then
    (va, maps)
  else if poison = false then
    (0, maps)
  else
    (va, maps ++ [⟨va, args.len, args.pa⟩])

def smptraceEnterIounmap (va : BitVec 64) (maps : List SmptraceMap) : List SmptraceMap :=
  remove SmptraceMap.va va maps

section Bounds

variable {ctx : SmptraceCtx} {map : SmptraceMap} {pa addr : BitVec 64}

theorem starts_iff (hbar : ctx.pa.toNat + ctx.len.toNat < 2 ^ 64) :
    Starts ctx pa ↔ ctx.pa.toNat ≤ pa.toNat ∧ pa.toNat < ctx.pa.toNat + ctx.len.toNat := by
  unfold Starts
  simp only [ge_iff_le, BitVec.le_def, BitVec.lt_def, BitVec.toNat_add, not_or, not_lt, not_le]
  rw [Nat.mod_eq_of_lt hbar]

/-- Nothing starts in a BAR that ends beyond the last address. -/
theorem Starts.end_le (h : Starts ctx pa) : ctx.pa.toNat + ctx.len.toNat < 2 ^ 64 := by
  unfold Starts at h
  have := ctx.len.isLt
  have := pa.isLt
  simp only [ge_iff_le, BitVec.le_def, BitVec.lt_def, BitVec.toNat_add, not_or, not_lt,
    not_le] at h
  omega

theorem has_iff (hend : map.va.toNat + map.len.toNat < 2 ^ 64) : Has map addr ↔
    map.va.toNat ≤ addr.toNat ∧ addr.toNat < map.va.toNat + map.len.toNat := by
  unfold Has
  simp only [ge_iff_le, BitVec.le_def, BitVec.lt_def, BitVec.toNat_add]
  rw [Nat.mod_eq_of_lt hend]

/-- No address is found in a map that is empty or ends beyond the last address. -/
theorem range_of_has (h : Has map addr) :
    map.va.toNat + map.len.toNat < 2 ^ 64 ∧ map.len.toNat ≠ 0 := by
  unfold Has at h
  have := map.len.isLt
  simp only [ge_iff_le, BitVec.le_def, BitVec.lt_def, BitVec.toNat_add] at h
  omega

end Bounds

section Fits

variable {ctx : SmptraceCtx} {map : SmptraceMap} {addr : BitVec 64} {size : ℕ}

/-- No access of the size runs into `BUG_ON`, and the BAR has all of it. -/
structure Fits (ctx : SmptraceCtx) (map : SmptraceMap) (addr : BitVec 64) (size : ℕ) : Prop where
  inBar : InBar ctx (barOffset ctx map addr) size
  read : ∀ s, smptraceEmulateRead ctx map addr size s ≠ none
  write : ∀ src s, src.length = size → smptraceEmulateWrite ctx map addr size src s ≠ none

theorem fits_iff (hsize : size ∈ sizes) :
    Fits ctx map addr size ↔ InBar ctx (barOffset ctx map addr) size := by
  refine ⟨fun h ↦ h.inBar, fun hbar ↦ ⟨hbar, fun s ↦ ?_, fun src s hsrc ↦ ?_⟩⟩
  · obtain ⟨stack, heq⟩ := emulateRead_eq hsize (not_outOfBar hbar (pos_of_mem_sizes hsize)) s
    simp [heq]
  · simp [emulateWrite_eq hsize (not_outOfBar hbar (pos_of_mem_sizes hsize)) hsrc]

/-- A map that has addresses has one at which 8 bytes fit only if it ends 7 bytes before the BAR. -/
theorem inside_of_fits (map : SmptraceMap) (hstarts : Starts ctx map.pa)
    (hlen : 0 < map.len.toNat) (hend : map.va.toNat + map.len.toNat < 2 ^ 64)
    (hfits : ∀ addr, Has map addr → InBar ctx (barOffset ctx map addr) 8) :
    map.pa.toNat + map.len.toNat + 7 ≤ ctx.pa.toNat + ctx.len.toNat := by
  obtain ⟨hlo, hhi⟩ := (starts_iff hstarts.end_le).mp hstarts
  by_contra hbeyond
  have := ctx.len.isLt
  -- the first address that is fewer than 8 bytes away from the end of the BAR
  obtain ⟨d, hd⟩ : ∃ d, d = ctx.len.toNat - 7 - (map.pa.toNat - ctx.pa.toNat) := ⟨_, rfl⟩
  have hva : (map.va + BitVec.ofNat 64 d).toNat = map.va.toNat + d := by
    rw [BitVec.toNat_add, BitVec.toNat_ofNat, Nat.mod_eq_of_lt (show d < 2 ^ 64 by omega)]
    exact Nat.mod_eq_of_lt (by omega)
  have hhas : Has map (map.va + BitVec.ofNat 64 d) := by
    rw [has_iff hend, hva]
    omega
  have hbar := hfits _ hhas
  rw [InBar, toNat_barOffset hlo (by omega) (by omega), hva] at hbar
  omega

theorem fits_of_inside (hstarts : Starts ctx map.pa) (hsize : size ∈ sizes) (hhas : Has map addr)
    (hinside : map.pa.toNat + map.len.toNat + 7 ≤ ctx.pa.toNat + ctx.len.toNat) :
    InBar ctx (barOffset ctx map addr) size := by
  obtain ⟨hlo, hhi⟩ := (starts_iff hstarts.end_le).mp hstarts
  obtain ⟨hle, hlt⟩ := (has_iff (range_of_has hhas).1).mp hhas
  have := le_of_mem_sizes hsize
  have := ctx.len.isLt
  rw [InBar, toNat_barOffset hlo hle (by omega)]
  omega

/-- With a mapping that the BAR has the start of, and whose addresses no other map has, accesses
fit just when the map has no address, or the BAR has the mapping and 7 more bytes. -/
theorem fits_iff_inside (ctx : SmptraceCtx) (args : IoremapArgs) (va : BitVec 64)
    (maps : List SmptraceMap) (hstarts : Starts ctx args.pa)
    (hfresh : ∀ map ∈ maps, ∀ addr, Has ⟨va, args.len, args.pa⟩ addr → ¬ Has map addr) :
    (∀ addr size, size ∈ sizes →
      smptraceFindMapRcu (smptraceExitIoremap ctx true true args va maps).2 addr =
        some ⟨va, args.len, args.pa⟩ → Fits ctx ⟨va, args.len, args.pa⟩ addr size) ↔
      (args.len.toNat = 0 ∨ 2 ^ 64 ≤ va.toNat + args.len.toNat ∨
        args.pa.toNat + args.len.toNat + 7 ≤ ctx.pa.toNat + ctx.len.toNat) := by
  have hmaps : (smptraceExitIoremap ctx true true args va maps).2 =
      maps ++ [⟨va, args.len, args.pa⟩] := by
    simp [smptraceExitIoremap, hstarts]
  have hfind (addr : BitVec 64) (hhas : Has ⟨va, args.len, args.pa⟩ addr) :
      smptraceFindMapRcu (maps ++ [⟨va, args.len, args.pa⟩]) addr =
        some ⟨va, args.len, args.pa⟩ := by
    have hnone : ∀ map ∈ maps, ¬ Has map addr := fun map hmap ↦ hfresh map hmap addr hhas
    rw [smptraceFindMapRcu, List.find?_append, List.find?_eq_none.mpr (by simpa using hnone)]
    simpa using hhas
  rw [hmaps]
  constructor
  · intro hfits
    by_cases hlen : args.len.toNat = 0
    · exact .inl hlen
    · by_cases hend : 2 ^ 64 ≤ va.toNat + args.len.toNat
      · exact .inr (.inl hend)
      · have hinside := inside_of_fits ⟨va, args.len, args.pa⟩ hstarts
          (Nat.pos_of_ne_zero hlen) (Nat.not_le.mp hend)
          fun addr hhas ↦ (hfits addr 8 (by simp [sizes]) (hfind addr hhas)).inBar
        exact .inr (.inr hinside)
  · intro hinside addr size hsize hfound
    have hhas : Has ⟨va, args.len, args.pa⟩ addr := by simpa using List.find?_some hfound
    rw [fits_iff hsize]
    refine fits_of_inside hstarts hsize hhas ?_
    obtain ⟨hend, hlen⟩ := range_of_has hhas
    rcases hinside with hzero | hwrap | hinside
    · exact absurd hzero hlen
    · exact absurd hend (Nat.not_lt.mpr hwrap)
    · exact hinside

theorem fits_iff_inside_page :
    (∀ map ∈ ([] : List SmptraceMap), ∀ addr,
      Has ⟨0x5000, 0x100, 0x10000000⟩ addr → ¬ Has map addr) ∧
    ∀ addr size, size ∈ sizes →
      smptraceFindMapRcu (smptraceExitIoremap page true true ⟨0x10000000, 0x100⟩ 0x5000 []).2 addr =
        some ⟨0x5000, 0x100, 0x10000000⟩ → Fits page ⟨0x5000, 0x100, 0x10000000⟩ addr size := by
  refine ⟨by simp, ?_⟩
  refine (fits_iff_inside page ⟨0x10000000, 0x100⟩ 0x5000 [] (by decide) (by simp)).mpr ?_
  decide

/-- An access to the last byte of the BAR need not fit. -/
theorem last_byte_does_not_fit : ¬ ∀ addr size, size ∈ sizes →
    smptraceFindMapRcu (smptraceExitIoremap page true true ⟨0x10000000, 0x1000⟩ 0x5000 []).2 addr =
      some ⟨0x5000, 0x1000, 0x10000000⟩ → Fits page ⟨0x5000, 0x1000, 0x10000000⟩ addr size := by
  intro hfits
  have hbar := (hfits 0x5fff 4 (by decide) (by decide)).inBar
  exact absurd hbar (by decide)

end Fits

section Attribution

/-- A range of addresses that `ioremap` has returned. -/
structure Mapping extends SmptraceMap where
  len_pos : 0 < len.toNat
  va_end : va.toNat + len.toNat < 2 ^ 64
  pa_end : pa.toNat + len.toNat ≤ 2 ^ 64
deriving DecidableEq

/-- A driver's call that succeeds. -/
inductive Call
  | ioremap (mapping : Mapping)
  | iounmap (va : BitVec 64)
deriving DecidableEq

/-- `live` has the mappings that the drivers have made since tracing began. -/
structure Traces where
  live : List Mapping
  maps : List SmptraceMap

variable (ctx : SmptraceCtx)

/-- Memory and poison succeed. -/
def step (s : Traces) : Call → Traces
  | .ioremap mapping =>
    ⟨s.live ++ [mapping],
      (smptraceExitIoremap ctx true true ⟨mapping.pa, mapping.len⟩ mapping.va s.maps).2⟩
  | .iounmap va => ⟨remove (fun mapping ↦ mapping.va) va s.live, smptraceEnterIounmap va s.maps⟩

def Traces.none : Traces := ⟨[], []⟩

def Mapping.Covers (mapping : Mapping) (addr : BitVec 64) : Prop :=
  mapping.va.toNat ≤ addr.toNat ∧ addr.toNat < mapping.va.toNat + mapping.len.toNat

/-- What is behind an address that the mapping has. -/
def Mapping.physical (mapping : Mapping) (addr : BitVec 64) : ℕ :=
  mapping.pa.toNat + (addr.toNat - mapping.va.toNat)

def Apart (m m' : Mapping) : Prop :=
  m.va.toNat + m.len.toNat ≤ m'.va.toNat ∨ m'.va.toNat + m'.len.toNat ≤ m.va.toNat

instance decidableApart (m m' : Mapping) : Decidable (Apart m m') :=
  inferInstanceAs (Decidable (_ ∨ _))

instance symmApart : Std.Symm Apart := ⟨fun _ _ h ↦ h.symm⟩

/-- `ioremap` returns addresses that no live mapping has. -/
def Fresh (s : Traces) : Call → Prop
  | .ioremap mapping => ∀ m ∈ s.live, Apart m mapping
  | .iounmap _ => True

instance decidableFresh (s : Traces) : (c : Call) → Decidable (Fresh s c)
  | .ioremap mapping => inferInstanceAs (Decidable (∀ m ∈ s.live, Apart m mapping))
  | .iounmap _ => inferInstanceAs (Decidable True)

/-- The first byte of the mapping is one of the BAR. -/
def Mapping.InBar (mapping : Mapping) : Prop :=
  ctx.pa.toNat ≤ mapping.pa.toNat ∧ mapping.pa.toNat < ctx.pa.toNat + ctx.len.toNat

instance decidableInBar (mapping : Mapping) : Decidable (mapping.InBar ctx) :=
  inferInstanceAs (Decidable (_ ∧ _))

/-- The live mappings have no address in common, and the maps are those that start in the BAR. -/
structure Attributed (s : Traces) : Prop where
  apart : s.live.Pairwise Apart
  maps : s.maps = (s.live.filter fun m ↦ m.InBar ctx).map Mapping.toSmptraceMap

variable {ctx} {s : Traces} {m m' : Mapping} {addr va : BitVec 64}

theorem covers_iff : Has m.toSmptraceMap addr ↔ m.Covers addr := has_iff m.va_end

theorem Apart.not_covers (h : Apart m m') (hm : m.Covers addr) : ¬ m'.Covers addr := by
  intro hm'
  obtain ⟨hlo, hhi⟩ := hm
  obtain ⟨hlo', hhi'⟩ := hm'
  rcases h with h | h
  · omega
  · omega

theorem Apart.va_ne (h : Apart m m') : m.va ≠ m'.va := by
  intro heq
  have hm := m.len_pos
  have hm' := m'.len_pos
  unfold Apart at h
  rw [heq] at h
  omega

theorem Attributed.unique (h : Attributed ctx s) : Unique (fun m : Mapping ↦ m.va) s.live :=
  h.apart.imp Apart.va_ne

theorem attributed_none : Attributed ctx .none := by
  constructor
  · exact .nil
  · rfl

theorem attributed_step (hbar : ctx.pa.toNat + ctx.len.toNat < 2 ^ 64) (h : Attributed ctx s)
    {c : Call} (hfresh : Fresh s c) : Attributed ctx (step ctx s c) := by
  cases c with
  | ioremap mapping =>
    refine ⟨?_, ?_⟩
    · refine List.pairwise_append.mpr ⟨h.apart, List.pairwise_singleton _ _, ?_⟩
      intro m hm m' hm'
      rw [List.mem_singleton.mp hm']
      exact hfresh m hm
    · by_cases hin : mapping.InBar ctx
      · have hstarts : Starts ctx mapping.pa := (starts_iff hbar).mpr hin
        simp [step, smptraceExitIoremap, hstarts, hin, h.maps]
      · have hstarts : ¬ Starts ctx mapping.pa := fun hstarts ↦ hin ((starts_iff hbar).mp hstarts)
        simp [step, smptraceExitIoremap, hstarts, hin, h.maps]
  | iounmap va =>
    have hunique := h.unique
    refine ⟨?_, ?_⟩
    · change (remove (fun m : Mapping ↦ m.va) va s.live).Pairwise Apart
      rw [remove_eq_filter hunique]
      exact List.Pairwise.filter _ h.apart
    · change remove SmptraceMap.va va s.maps = _
      rw [h.maps, remove_map]
      exact congrArg (List.map _) (remove_filter hunique _ va)

theorem attributed_run (hbar : ctx.pa.toNat + ctx.len.toNat < 2 ^ 64) {calls : List Call}
    (hs : Attributed ctx s) (h : Each (step ctx) Fresh s calls) :
    Attributed ctx (calls.foldl (step ctx) s) :=
  (Each.always (I := Attributed ctx) (fun _ _ hs hfresh ↦ attributed_step hbar hs hfresh) hs h).last

theorem Attributed.eq_of_covers (h : Attributed ctx s) (hm : m ∈ s.live) (hm' : m' ∈ s.live)
    (hcovers : m.Covers addr) (hcovers' : m'.Covers addr) : m = m' := by
  by_contra hne
  have happart : Apart m m' := h.apart.forall hm hm' hne
  exact happart.not_covers hcovers hcovers'

theorem toSmptraceMap_injective : Function.Injective Mapping.toSmptraceMap := by
  intro m m' heq
  cases m
  cases m'
  simpa using heq

/-- What a lookup finds is a live mapping. -/
theorem Attributed.of_find (h : Attributed ctx s) {map : SmptraceMap}
    (hfind : smptraceFindMapRcu s.maps addr = some map) :
    ∃ m ∈ s.live, m.InBar ctx ∧ m.toSmptraceMap = map ∧ m.Covers addr := by
  have hhas : Has map addr := by simpa using List.find?_some hfind
  have hmem := List.mem_of_find?_eq_some hfind
  rw [h.maps, List.mem_map] at hmem
  obtain ⟨m, hm, rfl⟩ := hmem
  obtain ⟨hlive, hin⟩ := List.mem_filter.mp hm
  exact ⟨m, hlive, by simpa using hin, rfl, covers_iff.mp hhas⟩

theorem Attributed.find (h : Attributed ctx s) (hm : m ∈ s.live) (hin : m.InBar ctx)
    (hcovers : m.Covers addr) : smptraceFindMapRcu s.maps addr = some m.toSmptraceMap ∧
      s.maps.countP (fun map ↦ Has map addr) = 1 := by
  refine find?_of_exclusive (p := fun map ↦ Has map addr) ?_ ?_ (covers_iff.mpr hcovers)
  · rw [h.maps, List.pairwise_map]
    refine List.Pairwise.imp ?_ (List.Pairwise.filter _ h.apart)
    intro m m' happart hhas hhas'
    exact happart.not_covers (covers_iff.mp hhas) (covers_iff.mp hhas')
  · rw [h.maps]
    exact List.mem_map_of_mem (List.mem_filter.mpr ⟨hm, by simpa using hin⟩)

theorem barOffset_physical (hin : m.InBar ctx) (hcovers : m.Covers addr) :
    (barOffset ctx m.toSmptraceMap addr).toNat + ctx.pa.toNat = m.physical addr := by
  have hend := m.pa_end
  obtain ⟨hlo, hhi⟩ := hin
  obtain ⟨hle, hlt⟩ := hcovers
  rw [toNat_barOffset hlo hle (by omega), Mapping.physical]
  omega

theorem not_mem_live_step {c : Call} (hm : m ∉ s.live) (hc : c ≠ .ioremap m) :
    m ∉ (step ctx s c).live := by
  cases c with
  | ioremap mapping =>
    have hne : m ≠ mapping := fun heq ↦ hc (heq ▸ rfl)
    simp [step, hm, hne]
  | iounmap va => exact fun hmem ↦ hm (List.mem_of_mem_eraseP hmem)

theorem not_mem_live_run {calls : List Call} (hm : m ∉ s.live) (hcalls : .ioremap m ∉ calls) :
    m ∉ (calls.foldl (step ctx) s).live := by
  induction calls generalizing s with
  | nil => exact hm
  | cons c calls ih =>
    rw [List.mem_cons, not_or] at hcalls
    exact ih (not_mem_live_step hm (Ne.symm hcalls.1)) hcalls.2

/-- In any order of the drivers' calls the maps are the live mappings that start in the BAR, an
address of one of them is attributed to it alone and to its place in the BAR, and to none once it
has been unmapped. -/
theorem maps_attribute_live (ctx : SmptraceCtx) (hbar : ctx.pa.toNat + ctx.len.toNat < 2 ^ 64)
    (calls : List Call) (h : Each (step ctx) Fresh .none calls) :
    (calls.foldl (step ctx) .none).maps =
        ((calls.foldl (step ctx) .none).live.filter fun m ↦ m.InBar ctx).map
          Mapping.toSmptraceMap ∧
      (∀ m ∈ (calls.foldl (step ctx) .none).live, ∀ addr, m.Covers addr →
        if m.InBar ctx then
          smptraceFindMapRcu (calls.foldl (step ctx) .none).maps addr = some m.toSmptraceMap ∧
            (calls.foldl (step ctx) .none).maps.countP (fun map ↦ Has map addr) = 1 ∧
            (barOffset ctx m.toSmptraceMap addr).toNat + ctx.pa.toNat = m.physical addr
        else
          smptraceFindMapRcu (calls.foldl (step ctx) .none).maps addr = none) ∧
      ∀ before va after, calls = before ++ .iounmap va :: after →
        ∀ m ∈ (before.foldl (step ctx) .none).live, m.va = va → .ioremap m ∉ after →
          ∀ addr, smptraceFindMapRcu (calls.foldl (step ctx) .none).maps addr ≠
            some m.toSmptraceMap := by
  have hrun := attributed_run hbar attributed_none h
  refine ⟨hrun.maps, fun m hm addr hcovers ↦ ?_, ?_⟩
  · split_ifs with hin
    · obtain ⟨hfind, hcount⟩ := hrun.find hm hin hcovers
      exact ⟨hfind, hcount, barOffset_physical hin hcovers⟩
    · cases hfind : smptraceFindMapRcu (calls.foldl (step ctx) .none).maps addr with
      | none => rfl
      | some map =>
        obtain ⟨m', hm', hin', -, hcovers'⟩ := hrun.of_find hfind
        exact absurd (hrun.eq_of_covers hm hm' hcovers hcovers' ▸ hin') hin
  · rintro before va after rfl m - hva hafter addr hfind
    obtain ⟨m', hm', -, heq, -⟩ := hrun.of_find hfind
    rw [toSmptraceMap_injective heq, List.foldl_append, List.foldl_cons] at hm'
    have hunique := (attributed_run hbar attributed_none h.of_prefix).unique
    exact not_mem_live_run (fun hmem ↦ ((mem_remove hunique).mp hmem).2 hva) hafter hm'

/-- A mapping of the BAR, and one elsewhere that has its addresses after it. -/
def whole : Mapping := ⟨⟨0x5000, 0x1000, 0x10000000⟩, by decide, by decide, by decide⟩

def elsewhere : Mapping := ⟨⟨0x5000, 0x1000, 0x20000000⟩, by decide, by decide, by decide⟩

theorem maps_attribute_live_reused :
    (page.pa.toNat + page.len.toNat < 2 ^ 64 ∧ Each (step page) Fresh .none
      [.ioremap whole, .iounmap 0x5000, .ioremap elsewhere]) ∧
    smptraceFindMapRcu ([Call.ioremap whole, .iounmap 0x5000, .ioremap elsewhere].foldl
      (step page) .none).maps 0x5800 ≠ some whole.toSmptraceMap := by
  have h : Each (step page) Fresh .none
      [.ioremap whole, .iounmap 0x5000, .ioremap elsewhere] := by decide
  refine ⟨⟨by decide, h⟩, ?_⟩
  have hattribute := maps_attribute_live page (by decide) _ h
  exact hattribute.2.2 [.ioremap whole] 0x5000 [.ioremap elsewhere] rfl whole (by decide) rfl
    (by decide) 0x5800

end Attribution

end Pciem.Trace.Maps
