import Pciem.Library.BitField
import Pciem.Library.Sv
import Pciem.Trace.PageTables

namespace Pciem.Trace.Translation

open Kernel Library.BitField Library.PageWalk Library.Sv Context Poison Walkers PageTables

variable {physToVirt : BitVec 64 → BitVec 64}

/-- The memory that the tables are in. -/
def physical (physToVirt : BitVec 64 → BitVec 64) (t : Tables (BitVec 64)) (a : BitVec 56) :
    BitVec 64 :=
  t (physToVirt (a.setWidth 64))

/-- How the code tells the level of an entry. -/
def level : ℕ → Level
  | 0 => .pte
  | 1 => .pmd
  | _ + 2 => .pud

theorem level_size {i : ℕ} (h : i ≤ 2) : (level i).size = span i := by
  cases i with
  | zero => rfl
  | succ i =>
    cases i with
    | zero => rfl
    | succ i =>
      have hi : i = 0 := by omega
      rw [hi]
      rfl

section Fields

/-- The address of a table. -/
def tablePa (table : BitVec 44) : BitVec 64 := (table ++ 0#12).setWidth 64

theorem toNat_tablePa (table : BitVec 44) : (tablePa table).toNat = 2 ^ 12 * table.toNat := by
  have hlt := table.isLt
  have happend : (table ++ 0#12).toNat = 2 ^ 12 * table.toNat := toNat_append table 0#12
  rw [tablePa, BitVec.toNat_setWidth, happend]
  omega

/-- A number of a table that has been shifted is its address. -/
theorem shiftLeft_eq_tablePa {w : BitVec 64} {table : BitVec 44} (h : w.toNat = table.toNat) :
    w <<< pageShift = tablePa table := by
  apply BitVec.eq_of_toNat_eq
  have hlt := table.isLt
  rw [BitVec.toNat_shiftLeft, h, toNat_tablePa, Nat.shiftLeft_eq]
  unfold pageShift
  omega

theorem tablePa_root (satp : BitVec 64) :
    (satp &&& riscvSatpPpnMask) <<< pageShift = tablePa (root satp) :=
  shiftLeft_eq_tablePa (toNat_mask satp 44 (by decide))

theorem riscvPtePa_eq (pte : BitVec 64) : riscvPtePa pte = tablePa (ppn pte) :=
  shiftLeft_eq_tablePa (toNat_masked pte 10 44
    (by decide : riscvPtePpnMask >>> 10 = genmask 43 0) (by decide))

theorem entryAddr_eq (table : BitVec 44) (va : BitVec 64) (i : ℕ) :
    (entryAddr table va i).setWidth 64 = tablePa table + 8 * ((va >>> (12 + 9 * i)) &&& 0x1FF) := by
  apply BitVec.eq_of_toNat_eq
  have htable := table.isLt
  have hvpn := (vpn va i).isLt
  have hidx : ((va >>> (12 + 9 * i)) &&& 0x1FF).toNat = (vpn va i).toNat :=
    toNat_field va (12 + 9 * i) 9 rfl
  have hrow : (table ++ vpn va i).toNat = 2 ^ 9 * table.toNat + (vpn va i).toNat :=
    toNat_append table (vpn va i)
  have hentry : (entryAddr table va i).toNat = 2 ^ 3 * (table ++ vpn va i).toNat :=
    toNat_append (table ++ vpn va i) 0#3
  have height : (8 : BitVec 64).toNat = 8 := rfl
  rw [BitVec.toNat_setWidth, hentry, hrow, BitVec.toNat_add, BitVec.toNat_mul, hidx, height,
    toNat_tablePa]
  omega

theorem and_riscvPteV (pte : BitVec 64) : pte &&& riscvPteV = 0 ↔ pte.getLsbD 0 = false :=
  and_bit pte (by decide) rfl

theorem and_riscvPteLeaf (pte : BitVec 64) :
    pte &&& riscvPteLeaf = 0 ↔ pte.getLsbD 1 = false ∧ pte.getLsbD 3 = false := by
  have hr : pte &&& riscvPteR = 0 ↔ pte.getLsbD 1 = false := and_bit pte (by decide) rfl
  have hx : pte &&& riscvPteX = 0 ↔ pte.getLsbD 3 = false := and_bit pte (by decide) rfl
  have hand : pte &&& riscvPteLeaf = pte &&& riscvPteR ||| pte &&& riscvPteX :=
    BitVec.and_or_distrib_left
  rw [hand, ← hr, ← hx]
  exact BitVec.or_eq_zero_iff

theorem riscvKind_absent {pte : BitVec 64} (h : Invalid pte) (hres : ¬ Reserved pte) :
    riscvKind pte = .absent :=
  if_pos ((and_riscvPteV pte).mpr (h.resolve_right hres))

theorem riscvKind_block {pte : BitVec 64} (h : Leaf pte) : riscvKind pte = .block := by
  have hvalid : ¬ pte &&& riscvPteV = 0 := fun hv ↦ h.1 (.inl ((and_riscvPteV pte).mp hv))
  have hleaf : pte &&& riscvPteLeaf ≠ 0 := fun hl ↦ by
    obtain ⟨hr, hx⟩ := (and_riscvPteLeaf pte).mp hl
    rcases h.2 with hr' | hx'
    · exact Bool.noConfusion (hr.symm.trans hr')
    · exact Bool.noConfusion (hx.symm.trans hx')
  rw [riscvKind, if_neg hvalid, if_pos hleaf]

theorem riscvKind_table {pte : BitVec 64} (h : ¬ Invalid pte) (h' : ¬ Leaf pte) :
    riscvKind pte = .table := by
  have hvalid : ¬ pte &&& riscvPteV = 0 := fun hv ↦ h (.inl ((and_riscvPteV pte).mp hv))
  have hnone := not_or.mp (not_and.mp h' h)
  have hleaf : pte &&& riscvPteLeaf = 0 := (and_riscvPteLeaf pte).mpr
    ⟨Bool.eq_false_iff.mpr hnone.1, Bool.eq_false_iff.mpr hnone.2⟩
  rw [riscvKind, if_neg hvalid, if_neg (not_not_intro hleaf)]

end Fields

/-- The steps of a walk from an entry of a level on. -/
def stagesFrom (physToVirt : BitVec 64 → BitVec 64) :
    ℕ → List (Stage (BitVec 64) (BitVec 64) (BitVec 64) Level)
  | 0 => []
  | i + 1 => riscvStage physToVirt (level (i + 1)) (12 + 9 * i) :: stagesFrom physToVirt i

theorem mode_eq (satp : BitVec 64) : satp >>> riscvSatpModeShift = (mode satp).setWidth 64 := by
  apply BitVec.eq_of_toNat_eq
  have hlt := satp.isLt
  rw [BitVec.toNat_ushiftRight, BitVec.toNat_setWidth, mode, BitVec.extractLsb'_toNat,
    Nat.shiftRight_eq_div_pow]
  unfold riscvSatpModeShift
  omega

theorem riscvStages_eq {satp : BitVec 64} {scheme : Scheme} (h : mode satp = scheme.mode) :
    riscvStages physToVirt (satp >>> riscvSatpModeShift) = stagesFrom physToVirt scheme.top := by
  rw [mode_eq, h]
  cases scheme with
  | sv39 | sv48 | sv57 => rfl

theorem riscvFirst_eq {satp : BitVec 64} {scheme : Scheme} (h : mode satp = scheme.mode)
    (va : BitVec 64) : (riscvWalkPte physToVirt satp).first va =
      riscvEntry physToVirt (tablePa (root satp)) va (12 + 9 * scheme.top) := by
  simp only [riscvWalkPte, mode_eq, h, tablePa_root]
  cases scheme with
  | sv39 | sv48 | sv57 => rfl

section Walk

variable (hlinear : ∀ pa d, physToVirt (pa + d) = physToVirt pa + d)

include hlinear in
theorem riscvEntry_eq (table : BitVec 44) (va : BitVec 64) (i : ℕ) :
    riscvEntry physToVirt (tablePa table) va (12 + 9 * i) =
      physToVirt ((entryAddr table va i).setWidth 64) := by
  rw [entryAddr_eq, hlinear]
  rfl

variable {t : Tables (BitVec 64)} {va : BitVec 64}

/-- No entry that a walk reads is reserved. -/
def Plain (mem : BitVec 56 → BitVec 64) (visited : List (ℕ × BitVec 56)) : Prop :=
  ∀ p ∈ visited, ¬ Reserved (mem p.2)

/-- The leaves that a walk comes to are at a level that has a name. -/
def Low (mem : BitVec 56 → BitVec 64) (visited : List (ℕ × BitVec 56)) : Prop :=
  ∀ p ∈ visited, Leaf (mem p.2) → p.1 ≤ 2

/-- What the steps from an entry on come to is what the architecture's walk comes to. -/
def Agrees (physToVirt : BitVec 64 → BitVec 64) (mem : BitVec 56 → BitVec 64)
    (visited : List (ℕ × BitVec 56)) : Option (BitVec 64 × Level) → Prop
  | none => ∃ p ∈ visited, 0 < p.1 ∧ Invalid (mem p.2)
  | some (ptep, level) => (∀ p ∈ visited, 0 < p.1 → ¬ Invalid (mem p.2)) ∧
      ∃ p, visited.getLast? = some p ∧ ptep = physToVirt (p.2.setWidth 64) ∧
        level.size = span p.1

theorem Agrees.cons {mem : BitVec 56 → BitVec 64} {visited : List (ℕ × BitVec 56)}
    {found : Option (BitVec 64 × Level)} (h : Agrees physToVirt mem visited found)
    (hne : visited ≠ []) {p : ℕ × BitVec 56} (hp : ¬ Invalid (mem p.2)) :
    Agrees physToVirt mem (p :: visited) found := by
  cases found with
  | none =>
    obtain ⟨q, hq, hinvalid⟩ := h
    exact ⟨q, List.mem_cons_of_mem p hq, hinvalid⟩
  | some found =>
    obtain ⟨hvalid, q, hlast, hq⟩ := h
    refine ⟨fun r hr hpos ↦ ?_, q, ?_, hq⟩
    · rcases List.mem_cons.mp hr with rfl | hr
      · exact hp
      · exact hvalid r hr hpos
    · rw [List.getLast?_cons_of_ne_nil hne, hlast]

include hlinear in
theorem walk_agrees (i : ℕ) (table : BitVec 44)
    (hplain : Plain (physical physToVirt t) (visits (physical physToVirt t) va i table))
    (hlow : Low (physical physToVirt t) (visits (physical physToVirt t) va i table)) :
    Agrees physToVirt (physical physToVirt t) (visits (physical physToVirt t) va i table)
      (walk .pte t va (stagesFrom physToVirt i)
        (riscvEntry physToVirt (tablePa table) va (12 + 9 * i))) := by
  induction i generalizing table with
  | zero =>
    refine ⟨fun p hp hpos ↦ ?_, (0, entryAddr table va 0), rfl, riscvEntry_eq hlinear table va 0,
      rfl⟩
    rw [List.mem_singleton.mp hp] at hpos
    exact absurd hpos (Nat.lt_irrefl 0)
  | succ i ih =>
    rw [riscvEntry_eq hlinear table va (i + 1), stagesFrom]
    by_cases hinvalid : Invalid (physical physToVirt t (entryAddr table va (i + 1)))
    · rw [visits_stop (.inl hinvalid)] at hplain ⊢
      have hplain' : ¬ Reserved (physical physToVirt t (entryAddr table va (i + 1))) :=
        hplain (i + 1, entryAddr table va (i + 1)) (List.mem_singleton_self _)
      rw [walk_absent (riscvKind_absent hinvalid hplain')]
      exact ⟨_, List.mem_singleton_self _, Nat.succ_pos i, hinvalid⟩
    · by_cases hleaf : Leaf (physical physToVirt t (entryAddr table va (i + 1)))
      · rw [visits_stop (.inr hleaf)] at hlow ⊢
        rw [walk_block (riscvKind_block hleaf)]
        refine ⟨fun p hp _ ↦ ?_, (i + 1, entryAddr table va (i + 1)), rfl, rfl, ?_⟩
        · rw [List.mem_singleton.mp hp]
          exact hinvalid
        · exact level_size
            (hlow (i + 1, entryAddr table va (i + 1)) (List.mem_singleton_self _) hleaf)
      · rw [visits_descend hinvalid hleaf] at hplain hlow ⊢
        rw [walk_table (riscvKind_table hinvalid hleaf)]
        have hnext := ih (ppn (physical physToVirt t (entryAddr table va (i + 1))))
          (fun p hp ↦ hplain p (List.mem_cons_of_mem _ hp))
          fun p hp ↦ hlow p (List.mem_cons_of_mem _ hp)
        rw [← riscvPtePa_eq] at hnext
        exact hnext.cons visits_ne_nil hinvalid

end Walk

/-- `riscv_walk_pte` comes to the entry that the architecture's walk comes to. -/
theorem walk_is_hardware {physToVirt : BitVec 64 → BitVec 64}
    (hlinear : ∀ pa d, physToVirt (pa + d) = physToVirt pa + d) (scheme : Scheme)
    {satp : BitVec 64} (hmode : mode satp = scheme.mode) (va : BitVec 64)
    (t : Tables (BitVec 64)) (hplain : Plain (physical physToVirt t)
      (visits (physical physToVirt t) va scheme.top (root satp)))
    (hlow : Low (physical physToVirt t)
      (visits (physical physToVirt t) va scheme.top (root satp))) :
    ((riscvWalkPte physToVirt satp).find t va = none ↔
      ∃ p ∈ visits (physical physToVirt t) va scheme.top (root satp),
        0 < p.1 ∧ Invalid (physical physToVirt t p.2)) ∧
    ∀ ptep level, (riscvWalkPte physToVirt satp).find t va = some (ptep, level) →
      ∃ p, (visits (physical physToVirt t) va scheme.top (root satp)).getLast? = some p ∧
        ptep = physToVirt (p.2.setWidth 64) ∧ level.size = span p.1 := by
  have hfind : (riscvWalkPte physToVirt satp).find t va =
      walk .pte t va (stagesFrom physToVirt scheme.top)
        (riscvEntry physToVirt (tablePa (root satp)) va (12 + 9 * scheme.top)) := by
    rw [← riscvStages_eq hmode, ← riscvFirst_eq hmode]
    rfl
  have hagrees := walk_agrees hlinear scheme.top (root satp) hplain hlow
  rw [← hfind] at hagrees
  cases hfound : (riscvWalkPte physToVirt satp).find t va with
  | none =>
    rw [hfound] at hagrees
    exact ⟨iff_of_true rfl hagrees, fun _ _ h ↦ absurd h.symm (Option.some_ne_none _)⟩
  | some found =>
    rw [hfound] at hagrees
    refine ⟨iff_of_false (Option.some_ne_none _) fun ⟨p, hp, hpos, hinvalid⟩ ↦
      hagrees.1 p hp hpos hinvalid, fun ptep level h ↦ ?_⟩
    rw [Option.some.injEq] at h
    rw [h] at hagrees
    exact hagrees.2

section Examples

/-- Where the kernel maps the memory. -/
def linearMap (pa : BitVec 64) : BitVec 64 := pa + 0xFFFFFFD600000000

theorem add_offset (offset pa d : BitVec 64) : pa + d + offset = pa + offset + d := by
  rw [BitVec.add_assoc, BitVec.add_assoc, BitVec.add_comm d]

def linearPage : Tables (BitVec 64) := fun e ↦ riscvPage (e - 0xFFFFFFD600000000)

theorem walk_is_hardware_onePage :
    ((riscvWalkPte linearMap satp).find linearPage onePage.va = none ↔
      ∃ p ∈ visits (physical linearMap linearPage) onePage.va 2 (root satp),
        0 < p.1 ∧ Invalid (physical linearMap linearPage p.2)) ∧
    ∀ ptep level, (riscvWalkPte linearMap satp).find linearPage onePage.va = some (ptep, level) →
      ∃ p, (visits (physical linearMap linearPage) onePage.va 2 (root satp)).getLast? = some p ∧
        ptep = linearMap (p.2.setWidth 64) ∧ level.size = span p.1 :=
  walk_is_hardware (add_offset _) .sv39 (by decide) onePage.va linearPage
    (by unfold Plain; decide) (by unfold Low; decide)

end Examples

end Pciem.Trace.Translation
