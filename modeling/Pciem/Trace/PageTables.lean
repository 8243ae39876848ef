import Pciem.Trace.Walkers

namespace Pciem.Trace.PageTables

open Kernel Library.PageWalk Context Poison Walkers

section Riscv

def riscvPteV : BitVec 64 := 1 <<< 0

def riscvPteR : BitVec 64 := 1 <<< 1

def riscvPteX : BitVec 64 := 1 <<< 3

def riscvPteLeaf : BitVec 64 := riscvPteR ||| riscvPteX

/-- `GENMASK_ULL` -/
def genmask (h l : ℕ) : BitVec 64 := (BitVec.allOnes 64 <<< l) &&& (BitVec.allOnes 64 >>> (63 - h))

def riscvPtePpnMask : BitVec 64 := genmask 53 10

def riscvPtePpnShift : ℕ := 10

def riscvSatpPpnMask : BitVec 64 := genmask 43 0

def riscvSatpModeShift : ℕ := 60

def riscvSatpModeSv48 : BitVec 64 := 9

def riscvSatpModeSv57 : BitVec 64 := 10

def pageShift : ℕ := 12

def riscvPtePa (pte : BitVec 64) : BitVec 64 :=
  ((pte &&& riscvPtePpnMask) >>> riscvPtePpnShift) <<< pageShift

variable (physToVirt : BitVec 64 → BitVec 64)

/-- `&table[idx]` -/
def riscvEntry (pa va : BitVec 64) (shift : ℕ) : BitVec 64 :=
  physToVirt pa + 8 * ((va >>> shift) &&& 0x1FF)

def riscvKind (pte : BitVec 64) : Kind :=
  if pte &&& riscvPteV = 0 then .absent else if pte &&& riscvPteLeaf ≠ 0 then .block else .table

/-- The level of a leaf, and the shift for the table that comes next. -/
def riscvStage (level : Level) (shift : ℕ) : Stage (BitVec 64) (BitVec 64) (BitVec 64) Level :=
  ⟨riscvKind, level, fun _ pte va ↦ riscvEntry physToVirt (riscvPtePa pte) va shift⟩

def riscvStages (mode : BitVec 64) : List (Stage (BitVec 64) (BitVec 64) (BitVec 64) Level) :=
  (if mode ≥ riscvSatpModeSv57 then [riscvStage physToVirt .pud 39] else []) ++
    (if mode ≥ riscvSatpModeSv48 then [riscvStage physToVirt .pud 30] else []) ++
      [riscvStage physToVirt .pud 21, riscvStage physToVirt .pmd pageShift]

theorem riscvSound (mode : BitVec 64) : Sound (riscvStages physToVirt mode) := by
  have hzero : riscvKind 0 = .absent := by decide
  have hends (level : Level) (shift : ℕ) (stages : List (Stage _ _ (BitVec 64) Level)) :
      EndsAtZero (riscvStage physToVirt level shift :: stages) := .inl hzero
  unfold riscvStages
  split_ifs
  · exact ⟨hends .., hends .., hends .., hends .., trivial⟩
  · exact ⟨hends .., hends .., hends .., trivial⟩
  · exact ⟨hends .., hends .., hends .., trivial⟩
  · exact ⟨hends .., hends .., trivial⟩

/-- `riscv_walk_pte` -/
def riscvWalkPte (kernelSatp : BitVec 64) : Walker (BitVec 64) :=
  let mode := kernelSatp >>> riscvSatpModeShift
  { stages := riscvStages physToVirt mode
    first := fun va ↦
      riscvEntry physToVirt ((kernelSatp &&& riscvSatpPpnMask) <<< pageShift) va
        (if mode ≥ riscvSatpModeSv57 then 48 else if mode ≥ riscvSatpModeSv48 then 39 else 30)
    sound := riscvSound physToVirt mode }

/-- `satp` is what the register has. -/
def riscvPoisonPte (satp : BitVec 64) (kzalloc : ℕ → Bool) (map : SmptraceMap)
    (t : Tables (BitVec 64)) : Except Errno (List (SmptracePte Level)) × Tables (BitVec 64) :=
  poisonPte (riscvWalkPte physToVirt satp).paging kzalloc map t

def riscvRestorePte (satp : BitVec 64) (map : SmptraceMap) (t : Tables (BitVec 64))
    (ptes : List (SmptracePte Level)) : Tables (BitVec 64) × List (SmptracePte Level) :=
  restorePte (riscvWalkPte physToVirt satp) map t ptes

end Riscv

section Arm64

/-- What the kernel has for the tables of arm64. A level may be folded into the next one; the last
two are not, and none of their entries that is clear has anything behind it. -/
structure Arm64Pgtable where
  pgdOffsetPgd : BitVec 64 → BitVec 64
  pgdNone : BitVec 64 → Bool
  pgdBad : BitVec 64 → Bool
  p4dOffset : BitVec 64 → BitVec 64 → BitVec 64 → BitVec 64
  p4dNone : BitVec 64 → Bool
  p4dBad : BitVec 64 → Bool
  pudOffset : BitVec 64 → BitVec 64 → BitVec 64 → BitVec 64
  pudNone : BitVec 64 → Bool
  pudSect : BitVec 64 → Bool
  pudBad : BitVec 64 → Bool
  pmdOffset : BitVec 64 → BitVec 64 → BitVec 64 → BitVec 64
  pmdNone : BitVec 64 → Bool
  pmdSect : BitVec 64 → Bool
  pmdBad : BitVec 64 → Bool
  pteOffsetKernel : BitVec 64 → BitVec 64 → BitVec 64 → BitVec 64
  pgd_zero : pgdNone 0 = true ∨
    (∀ v, pgdNone v = false ∧ pgdBad v = false) ∧ ∀ e v va, p4dOffset e v va = e
  p4d_zero : p4dNone 0 = true ∨
    (∀ v, p4dNone v = false ∧ p4dBad v = false) ∧ ∀ e v va, pudOffset e v va = e
  pud_zero : pudNone 0 = true
  pmd_zero : pmdNone 0 = true

variable (k : Arm64Pgtable)

def arm64Pgd (v : BitVec 64) : Kind :=
  if k.pgdNone v ∨ k.pgdBad v then .absent else .table

def arm64P4d (v : BitVec 64) : Kind :=
  if k.p4dNone v ∨ k.p4dBad v then .absent else .table

def arm64Pud (v : BitVec 64) : Kind :=
  if k.pudNone v then .absent else if k.pudSect v then .block
  else if k.pudBad v then .absent else .table

def arm64Pmd (v : BitVec 64) : Kind :=
  if k.pmdNone v then .absent else if k.pmdSect v then .block
  else if k.pmdBad v then .absent else .table

/-- The first two steps end at no block. -/
def arm64Stages : List (Stage (BitVec 64) (BitVec 64) (BitVec 64) Level) :=
  [⟨arm64Pgd k, .pud, k.p4dOffset⟩, ⟨arm64P4d k, .pud, k.pudOffset⟩,
    ⟨arm64Pud k, .pud, k.pmdOffset⟩, ⟨arm64Pmd k, .pmd, k.pteOffsetKernel⟩]

theorem arm64Sound : Sound (arm64Stages k) := by
  have hpmd : EndsAtZero [⟨arm64Pmd k, Level.pmd, k.pteOffsetKernel⟩] :=
    .inl (if_pos k.pmd_zero)
  have hpud : EndsAtZero [⟨arm64Pud k, .pud, k.pmdOffset⟩,
      ⟨arm64Pmd k, Level.pmd, k.pteOffsetKernel⟩] := .inl (if_pos k.pud_zero)
  have hp4d : EndsAtZero [⟨arm64P4d k, .pud, k.pudOffset⟩, ⟨arm64Pud k, .pud, k.pmdOffset⟩,
      ⟨arm64Pmd k, Level.pmd, k.pteOffsetKernel⟩] := by
    rcases k.p4d_zero with hzero | ⟨hnever, hfold⟩
    · exact .inl (if_pos (.inl hzero))
    · exact .inr ⟨fun v ↦ if_neg (by simp [hnever]), hfold, hpud⟩
  refine ⟨?_, hp4d, hpud, hpmd, trivial⟩
  rcases k.pgd_zero with hzero | ⟨hnever, hfold⟩
  · exact .inl (if_pos (.inl hzero))
  · exact .inr ⟨fun v ↦ if_neg (by simp [hnever]), hfold, hp4d⟩

/-- `arm64_walk_pte` -/
def arm64WalkPte : Walker (BitVec 64) where
  stages := arm64Stages k
  first := k.pgdOffsetPgd
  sound := arm64Sound k

def arm64PoisonPte (kzalloc : ℕ → Bool) (map : SmptraceMap) (t : Tables (BitVec 64)) :
    Except Errno (List (SmptracePte Level)) × Tables (BitVec 64) :=
  poisonPte (arm64WalkPte k).paging kzalloc map t

def arm64RestorePte (map : SmptraceMap) (t : Tables (BitVec 64))
    (ptes : List (SmptracePte Level)) : Tables (BitVec 64) × List (SmptracePte Level) :=
  restorePte (arm64WalkPte k) map t ptes

end Arm64

/-- Where a map has been poisoned, restoring it leaves the tables as they were and the list empty
just where it can be recovered. -/
theorem restore_undoes_iff (kzalloc : ℕ → Bool) (map : SmptraceMap) (t t' : Tables (BitVec 64))
    (ptes : List (SmptracePte Level)) :
    (∀ (physToVirt : BitVec 64 → BitVec 64) (satp : BitVec 64),
      riscvPoisonPte physToVirt satp kzalloc map t = (.ok ptes, t') →
      (riscvRestorePte physToVirt satp map t' ptes = (t, []) ↔
        Recoverable (riscvWalkPte physToVirt satp) t map)) ∧
    ∀ k : Arm64Pgtable, arm64PoisonPte k kzalloc map t = (.ok ptes, t') →
      (arm64RestorePte k map t' ptes = (t, []) ↔ Recoverable (arm64WalkPte k) t map) :=
  ⟨fun _ _ h ↦ restorePte_iff h, fun _ h ↦ restorePte_iff h⟩

section Examples

theorem poisonPte_one {E : Type} [DecidableEq E] {w : Walker E} {t : Tables E} {map : SmptraceMap}
    {ptep : E} {level : Level} (hpos : 0 < map.len.toInt) (hle : map.len.toInt ≤ level.size)
    (hfind : w.find t map.va = some (ptep, level)) :
    poisonPte w.paging (fun _ ↦ true) map t =
      (.ok [⟨map.va, level, t ptep⟩], Function.update t ptep 0) := by
  have hdone : ¬ map.len.toInt - (w.paging.size level : ℕ) > 0 := by
    change ¬ map.len.toInt - level.size > 0
    omega
  rw [poisonPte, poisonLoop_stop hpos hfind rfl rfl, poisonLoop_done hdone]
  rfl

def satp : BitVec 64 := 0x8000000000000001

def onePage : SmptraceMap := ⟨0xFFFFFFC800000000, 0x1000, 0x10000000⟩

/-- The tables are at 0x1000, 0x2000 and 0x3000. -/
def riscvPage : Tables (BitVec 64)
  | 0x1900 => 0x801
  | 0x2000 => 0xC01
  | 0x3000 => 0x4000007
  | _ => 0

/-- The second table has a block. -/
def riscvBlock : Tables (BitVec 64)
  | 0x1900 => 0x801
  | 0x2000 => 0x4000007
  | _ => 0

/-- Pages of 4K, and four levels. -/
def arm64Pgtable : Arm64Pgtable where
  pgdOffsetPgd va := 0x1000 + 8 * ((va >>> 39) &&& 0x1FF)
  pgdNone _ := false
  pgdBad _ := false
  p4dOffset e _ _ := e
  p4dNone v := v == 0
  p4dBad v := v &&& 2 == 0
  pudOffset _ v va := (v &&& genmask 47 12) + 8 * ((va >>> 30) &&& 0x1FF)
  pudNone v := v == 0
  pudSect v := v &&& 3 == 1
  pudBad v := v &&& 2 == 0
  pmdOffset _ v va := (v &&& genmask 47 12) + 8 * ((va >>> 21) &&& 0x1FF)
  pmdNone v := v == 0
  pmdSect v := v &&& 3 == 1
  pmdBad v := v &&& 2 == 0
  pteOffsetKernel _ v va := (v &&& genmask 47 12) + 8 * ((va >>> 12) &&& 0x1FF)
  pgd_zero := .inr ⟨fun _ ↦ ⟨rfl, rfl⟩, fun _ _ _ ↦ rfl⟩
  p4d_zero := .inl rfl
  pud_zero := rfl
  pmd_zero := rfl

def arm64Page : Tables (BitVec 64)
  | 0x1FF8 => 0x2003
  | 0x2900 => 0x3003
  | 0x3000 => 0x4003
  | 0x4000 => 0x10000003
  | _ => 0

theorem riscv_find : (riscvWalkPte id satp).find riscvPage onePage.va = some (0x3000, .pte) := by
  decide

theorem riscv_find_block : (riscvWalkPte id satp).find riscvBlock onePage.va =
    some (0x2000, .pmd) := by
  decide

theorem arm64_find : (arm64WalkPte arm64Pgtable).find arm64Page onePage.va =
    some (0x4000, .pte) := by
  decide

/-- A map of one page, where the entry of the page is on the way to nothing of it. -/
theorem recoverable_one {E : Type} {w : Walker E} {t : Tables E} {map : SmptraceMap} {ptep : E}
    (hlen : map.len.toInt ≤ (pageSize : ℕ)) (hfind : w.find t map.va = some (ptep, .pte))
    (hpath : ptep ∉ w.path t map.va) : Recoverable w t map := by
  have hzero {i : ℕ} (hi : HasPage map i) : i = 0 := by
    unfold HasPage pageSize at *
    omega
  have hfirst : pageAt map.va 0 = map.va := by simp [pageAt]
  refine ⟨fun i hi ↦ ⟨ptep, ?_⟩, fun i j e hij hj ↦ ?_, fun i j e hi hj he ↦ ?_⟩
  · rw [hzero hi, hfirst]
    exact hfind
  · have hj' := hzero hj
    omega
  · rw [hzero hi, hfirst, hfind] at he
    cases he
    rw [hzero hj, hfirst]
    exact hpath

/-- The page can be recovered, so that its entry is as before poisoning. -/
theorem restore_undoes_onePage :
    (∃ ptes t', riscvPoisonPte id satp (fun _ ↦ true) onePage riscvPage = (.ok ptes, t') ∧
      t' ≠ riscvPage ∧ Recoverable (riscvWalkPte id satp) riscvPage onePage ∧
      riscvRestorePte id satp onePage t' ptes = (riscvPage, [])) ∧
    ∃ ptes t', arm64PoisonPte arm64Pgtable (fun _ ↦ true) onePage arm64Page = (.ok ptes, t') ∧
      t' ≠ arm64Page ∧ Recoverable (arm64WalkPte arm64Pgtable) arm64Page onePage ∧
      arm64RestorePte arm64Pgtable onePage t' ptes = (arm64Page, []) := by
  have hpos : 0 < onePage.len.toInt := by decide
  have hriscv := poisonPte_one hpos (by decide) riscv_find
  have harm64 := poisonPte_one hpos (by decide) arm64_find
  have hrecoverable : Recoverable (riscvWalkPte id satp) riscvPage onePage :=
    recoverable_one (by decide) riscv_find (by decide)
  have hrecoverable' : Recoverable (arm64WalkPte arm64Pgtable) arm64Page onePage :=
    recoverable_one (by decide) arm64_find (by decide)
  refine ⟨⟨_, _, hriscv, fun h ↦ ?_, hrecoverable, ?_⟩, _, _, harm64, fun h ↦ ?_, hrecoverable', ?_⟩
  · exact absurd (congrFun h 0x3000) (by decide)
  · exact ((restore_undoes_iff (fun _ ↦ true) onePage riscvPage _ _).1 id satp hriscv).mpr
      hrecoverable
  · exact absurd (congrFun h 0x4000) (by decide)
  · exact ((restore_undoes_iff (fun _ ↦ true) onePage arm64Page _ _).2 arm64Pgtable harm64).mpr
      hrecoverable'

/-- The entry of the block is not found again. -/
theorem block_lost : ∃ ptes t', riscvPoisonPte id satp (fun _ ↦ true) onePage riscvBlock =
    (.ok ptes, t') ∧ riscvRestorePte id satp onePage t' ptes ≠ (riscvBlock, []) := by
  refine ⟨_, _, poisonPte_one (by decide) (by decide) riscv_find_block, fun h ↦ ?_⟩
  have hnone : (riscvWalkPte id satp).find (Function.update riscvBlock 0x2000 0) onePage.va =
      none := by
    decide
  have hdone : ¬ onePage.len.toInt - (pageSize : ℕ) > 0 := by decide
  rw [riscvRestorePte, restorePte, restoreLoop, if_pos (by decide), hnone] at h
  simp only at h
  rw [restoreLoop, if_neg hdone] at h
  exact absurd (congrArg Prod.snd h) (List.cons_ne_nil _ _)

end Examples

end Pciem.Trace.PageTables
