import Mathlib.Algebra.Order.Ring.Nat
import Pciem.Library.Greedy
import Pciem.P2p.Regions

namespace Pciem.P2p.Parse

open Kernel Library.Greedy Regions

variable {r r' region : PciemP2pRegion} {token : Token} {tokens : List Token}
  {mgr mgr' : PciemP2pManager}

/-- The addresses of a region, which do not wrap. -/
def Covers (region : PciemP2pRegion) (x : ℕ) : Prop :=
  region.physStart.toNat ≤ x ∧ x < region.physStart.toNat + region.size.toNat

/-- Two regions have an address in common. -/
def Clash (r r' : PciemP2pRegion) : Prop := ∃ x, Covers r x ∧ Covers r' x

/-- The region of a token that is well-formed, of an admissible size, and mapped. -/
def candidate (token : Token) : Option PciemP2pRegion :=
  match token with
  | (some (phys, size), some kaddr) =>
    if 1 ≤ size.toNat ∧ size.toNat ≤ 2 ^ 40 then some ⟨phys, size, kaddr⟩ else none
  | _ => none

/-- The tokens of the parameter; an empty one has none. -/
def tokensOf (sscanf : String → String → Option (BitVec 64 × BitVec 64))
    (kaddr : ℕ → Option (BitVec 64)) : Option String → List Token
  | none => []
  | some str => if str.length = 0 then [] else scanTokens sscanf kaddr str

/-- `ioremap_wc` maps nothing that starts at 2^52 or above. -/
def Mappable (tokens : List Token) : Prop :=
  ∀ phys size kaddr, (some (phys, size), some kaddr) ∈ tokens → phys.toNat < 2 ^ 52

/-- What holds of a region that is kept. -/
structure Bounded (region : PciemP2pRegion) : Prop where
  start : region.physStart.toNat < 2 ^ 52
  pos : 1 ≤ region.size.toNat
  size : region.size.toNat ≤ 2 ^ 40

section Loop

theorem candidate_eq_some : candidate token = some region ↔
    token = (some (region.physStart, region.size), some region.kaddr) ∧
      1 ≤ region.size.toNat ∧ region.size.toNat ≤ 2 ^ 40 := by
  obtain ⟨phys, size, kaddr⟩ := region
  obtain ⟨_ | ⟨phys', size'⟩, _ | kaddr'⟩ := token
  · simp [candidate]
  · simp [candidate]
  · simp [candidate]
  · rw [candidate]
    constructor
    · intro h
      split at h
      · rename_i hsize
        cases h
        exact ⟨rfl, hsize⟩
      · cases h
    · rintro ⟨heq, hsize⟩
      cases heq
      exact if_pos hsize

theorem Bounded.regionEnd (h : Bounded r) :
    r.regionEnd.toNat = r.physStart.toNat + r.size.toNat := by
  have hstart := h.start
  have hsize := h.size
  rw [PciemP2pRegion.regionEnd, BitVec.toNat_add]
  omega

/-- The test of the code finds what two regions have in common. -/
theorem overlap_iff (h : Bounded r) (h' : Bounded r') :
    Overlap r'.physStart r'.size r ↔ Clash r r' := by
  have hend := h.regionEnd
  have hend' : (r'.physStart + r'.size).toNat = r'.physStart.toNat + r'.size.toNat := h'.regionEnd
  have hpos := h.pos
  have hpos' := h'.pos
  rw [Overlap, BitVec.lt_def, gt_iff_lt, BitVec.lt_def, hend, hend']
  constructor
  · rintro ⟨hlt, hlt'⟩
    refine ⟨max r.physStart.toNat r'.physStart.toNat, ⟨?_, ?_⟩, ⟨?_, ?_⟩⟩ <;> omega
  · rintro ⟨x, ⟨hlo, hhi⟩, hlo', hhi'⟩
    omega

theorem bounded_candidate (htoken : Mappable [token]) (h : candidate token = some region) :
    Bounded region := by
  obtain ⟨rfl, hpos, hsize⟩ := candidate_eq_some.mp h
  exact ⟨htoken _ _ _ (List.mem_singleton_self _), hpos, hsize⟩

theorem bad_size_iff (size : BitVec 64) :
    (size = 0 ∨ size > 1 <<< 40) ↔ ¬ (1 ≤ size.toNat ∧ size.toNat ≤ 2 ^ 40) := by
  have hlimit : (1 <<< 40 : BitVec 64).toNat = 2 ^ 40 := by decide
  have hzero : (0 : BitVec 64).toNat = 0 := rfl
  rw [← BitVec.toNat_inj, gt_iff_lt, BitVec.lt_def, hlimit, hzero]
  omega

theorem bounded_of_picked {chosen : ℕ → Bool} (htokens : Mappable tokens)
    (h : region ∈ picked candidate tokens chosen) : Bounded region := by
  obtain ⟨n, -, hn⟩ := List.mem_filterMap.mp h
  split at hn
  · obtain ⟨token, htoken, hcandidate⟩ := Option.bind_eq_some_iff.mp hn
    obtain ⟨rfl, hpos, hsize⟩ := candidate_eq_some.mp hcandidate
    exact ⟨htokens _ _ _ (List.mem_of_getElem? htoken), hpos, hsize⟩
  · cases hn

variable [DecidableRel Clash]

theorem parsedRegion_eq (hmgr : ∀ r ∈ mgr.regions, Bounded r) (htoken : Mappable [token]) :
    parsedRegion mgr token.1 token.2 = accept candidate Clash mgr.regions token := by
  obtain ⟨_ | ⟨phys, size⟩, kaddr⟩ := token
  · rfl
  by_cases hsize : 1 ≤ size.toNat ∧ size.toNat ≤ 2 ^ 40
  · cases kaddr with
    | none =>
      rw [parsedRegion]
      split_ifs
      · rfl
      · rfl
      · rfl
    | some kaddr =>
      have hcandidate : candidate (some (phys, size), some kaddr) = some ⟨phys, size, kaddr⟩ :=
        if_pos hsize
      have hregion := bounded_candidate htoken hcandidate
      have hclash : (∃ r ∈ mgr.regions, Overlap phys size r) ↔
          ∃ r ∈ mgr.regions, Clash r ⟨phys, size, kaddr⟩ :=
        exists_congr fun r ↦ and_congr_right fun hr ↦ overlap_iff (hmgr r hr) hregion
      rw [parsedRegion, if_neg ((bad_size_iff size).not.mpr (not_not_intro hsize)), accept,
        hcandidate]
      exact if_congr hclash rfl rfl
  · have hcandidate : candidate (some (phys, size), kaddr) = none := by
      cases kaddr with
      | none => rfl
      | some kaddr => exact if_neg hsize
    rw [parsedRegion, if_pos ((bad_size_iff size).mpr hsize), accept, hcandidate]
    rfl

theorem parseToken_eq (hmgr : ∀ r ∈ mgr.regions, Bounded r) (htoken : Mappable [token])
    (count : ℕ) : parseToken mgr count token.1 token.2 =
      ({ mgr with regions := mgr.regions ++ (accept candidate Clash mgr.regions token).toList },
        count + (accept candidate Clash mgr.regions token).toList.length) := by
  rw [parseToken, parsedRegion_eq hmgr htoken]
  cases accept candidate Clash mgr.regions token with
  | none => simp
  | some region => rfl

/-- The loop selects, and counts what it keeps. -/
theorem parseTokens_eq (hmgr : ∀ r ∈ mgr.regions, Bounded r) (htokens : Mappable tokens)
    (count : ℕ) :
    (parseTokens tokens mgr count).1 =
        { mgr with regions := select candidate Clash tokens mgr.regions } ∧
      (parseTokens tokens mgr count).2 + mgr.regions.length =
        count + (select candidate Clash tokens mgr.regions).length := by
  induction tokens generalizing mgr count with
  | nil => exact ⟨rfl, rfl⟩
  | cons token tokens ih =>
    have htoken : Mappable [token] := fun phys size kaddr h ↦
      htokens phys size kaddr (List.mem_cons.mpr (.inl (List.mem_singleton.mp h)))
    have hrest : Mappable tokens := fun phys size kaddr h ↦
      htokens phys size kaddr (List.mem_cons_of_mem token h)
    let mgr' : PciemP2pManager := { mgr with
      regions := mgr.regions ++ (accept candidate Clash mgr.regions token).toList }
    have hnext : ∀ r ∈ mgr'.regions, Bounded r := by
      intro r hr
      rcases List.mem_append.mp hr with hr | hr
      · exact hmgr r hr
      · exact bounded_candidate htoken (accept_eq_some.mp (Option.mem_toList.mp hr)).1
    obtain ⟨hfst, hsnd⟩ := ih hnext hrest
      (count + (accept candidate Clash mgr.regions token).toList.length)
    have hlength : mgr'.regions.length = mgr.regions.length +
        (accept candidate Clash mgr.regions token).toList.length := List.length_append
    rw [parseTokens, parseToken_eq hmgr htoken, select]
    refine ⟨hfst, ?_⟩
    change (parseTokens tokens mgr' _).2 + mgr.regions.length =
      count + (select candidate Clash tokens mgr'.regions).length
    omega

end Loop

theorem bounded_new : ∀ r ∈ PciemP2pManager.new.regions, Bounded r :=
  fun _ hr ↦ absurd hr List.not_mem_nil

theorem parse_eq [DecidableRel Clash]
    {sscanf : String → String → Option (BitVec 64 × BitVec 64)} {copied : Bool}
    {kaddr : ℕ → Option (BitVec 64)} {regionsStr : Option String}
    (hmap : Mappable (tokensOf sscanf kaddr regionsStr))
    (h : parseP2pRegions .new sscanf copied kaddr regionsStr = (.ok (), mgr)) :
    mgr.regions = select candidate Clash (tokensOf sscanf kaddr regionsStr) [] ∧
      (mgr.enabled = true ↔ mgr.regions ≠ []) := by
  have hempty : PciemP2pManager.new.enabled = true ↔ PciemP2pManager.new.regions ≠ [] :=
    iff_of_false Bool.false_ne_true (not_not_intro rfl)
  cases regionsStr with
  | none =>
    cases h
    exact ⟨rfl, hempty⟩
  | some str =>
    rw [parseP2pRegions] at h
    by_cases hlength : str.length = 0
    · rw [if_pos hlength] at h
      cases h
      rw [tokensOf, if_pos hlength]
      exact ⟨rfl, hempty⟩
    rw [tokensOf, if_neg hlength] at hmap ⊢
    rw [if_neg hlength] at h
    by_cases hcopied : copied = false
    · rw [if_pos hcopied] at h
      cases h
    rw [if_neg hcopied] at h
    have hparsed := (Prod.mk.inj h).2
    obtain ⟨hmgr, hcount⟩ := parseTokens_eq bounded_new hmap 0
    rw [hmgr] at hparsed
    have hpos : (parseTokens (scanTokens sscanf kaddr str) .new 0).2 > 0 ↔
        select candidate Clash (scanTokens sscanf kaddr str) [] ≠ [] := by
      rw [← List.length_pos_iff]
      have hzero : PciemP2pManager.new.regions.length = 0 := rfl
      have hselect : (select candidate Clash (scanTokens sscanf kaddr str)
          PciemP2pManager.new.regions).length =
          (select candidate Clash (scanTokens sscanf kaddr str) []).length := rfl
      omega
    split_ifs at hparsed with hkept
    · rw [← hparsed]
      exact ⟨rfl, iff_of_true rfl (hpos.mp hkept)⟩
    · rw [← hparsed]
      exact ⟨rfl, iff_of_false Bool.false_ne_true (hpos.not.mp hkept)⟩

/-- The regions that the parser keeps. -/
theorem parse_keeps {sscanf : String → String → Option (BitVec 64 × BitVec 64)} {copied : Bool}
    {kaddr : ℕ → Option (BitVec 64)} {regionsStr : Option String}
    (hmap : Mappable (tokensOf sscanf kaddr regionsStr))
    (h : parseP2pRegions .new sscanf copied kaddr regionsStr = (.ok (), mgr)) :
    (∃ chosen, Chooses candidate Clash [] (tokensOf sscanf kaddr regionsStr) chosen ∧
      mgr.regions = picked candidate (tokensOf sscanf kaddr regionsStr) chosen ∧
      ∀ n, chosen n = false →
        (parseTokens ((tokensOf sscanf kaddr regionsStr).eraseIdx n) .new 0).1.regions =
          mgr.regions) ∧
    mgr.regions.Pairwise (fun r r' ↦ ¬ Clash r r') ∧
    (∀ r ∈ mgr.regions, r.physStart.toNat + r.size.toNat ≤ 2 ^ 64) ∧
    (mgr.enabled = true ↔ mgr.regions ≠ []) := by
  classical
  obtain ⟨hregions, henabled⟩ := parse_eq hmap h
  obtain ⟨chosen, hchosen⟩ : ∃ chosen, Chooses candidate Clash []
      (tokensOf sscanf kaddr regionsStr) chosen := exists_chooses _ _
  have hpicked : mgr.regions = picked candidate (tokensOf sscanf kaddr regionsStr) chosen :=
    hregions.trans hchosen.select_eq
  refine ⟨⟨chosen, hchosen, hpicked, fun n hn ↦ ?_⟩, ?_, fun r hr ↦ ?_, henabled⟩
  · have herase : Mappable ((tokensOf sscanf kaddr regionsStr).eraseIdx n) :=
      fun phys size kaddr' hmem ↦ hmap phys size kaddr' (List.mem_of_mem_eraseIdx hmem)
    rw [(parseTokens_eq bounded_new herase 0).1, hregions, ← hchosen.select_eraseIdx hn]
    rfl
  · rw [hpicked]
    exact hchosen.pairwise
  · have hr' : r ∈ picked candidate (tokensOf sscanf kaddr regionsStr) chosen := hpicked ▸ hr
    have hbounded := bounded_of_picked hmap hr'
    have hstart := hbounded.start
    have hsize := hbounded.size
    omega

section Example

theorem mappable_of_scan {sscanf : String → String → Option (BitVec 64 × BitVec 64)}
    (h : ∀ fmt token phys size, sscanf fmt token = some (phys, size) → phys.toNat < 2 ^ 52)
    (kaddr : ℕ → Option (BitVec 64)) (regionsStr : Option String) :
    Mappable (tokensOf sscanf kaddr regionsStr) := by
  intro phys size kaddr' hmem
  cases regionsStr with
  | none => cases hmem
  | some str =>
    rw [tokensOf] at hmem
    split_ifs at hmem
    · cases hmem
    · obtain ⟨n, hn, htoken⟩ := List.mem_mapIdx.mp hmem
      rcases Option.or_eq_some_iff.mp (Prod.mk.inj htoken).1 with hfirst | ⟨-, hsecond⟩
      · exact h _ _ _ _ hfirst
      · exact h _ _ _ _ hsecond

/-- What `sscanf` reads of the tokens below. -/
def scanFew (_ token : String) : Option (BitVec 64 × BitVec 64) :=
  if token = "0x10000000:0x1000" then some (0x10000000, 0x1000)
  else if token = "0x10000800:0x1000" then some (0x10000800, 0x1000)
  else if token = "0x20000000:0x2000" then some (0x20000000, 0x2000)
  else none

def mapFew (n : ℕ) : Option (BitVec 64) := some (0xFFFFC90000000000 + BitVec.ofNat 64 n <<< 20)

/-- Two regions to keep, and between them one that overlaps the first and a token that is none. -/
def fewRegions : String := "0x10000000:0x1000,0x10000800:0x1000,none,0x20000000:0x2000"

theorem scanFew_lt (fmt token : String) (phys size : BitVec 64)
    (h : scanFew fmt token = some (phys, size)) : phys.toNat < 2 ^ 52 := by
  rw [scanFew] at h
  split_ifs at h
  all_goals
    cases h
    decide

/-- The first and the last region are kept, and are the ones without the token that is none. -/
theorem parse_keeps_two : ∃ mgr,
    parseP2pRegions .new scanFew true mapFew (some fewRegions) = (.ok (), mgr) ∧
    mgr.regions.map (·.physStart) = [0x10000000, 0x20000000] ∧
    (parseTokens ((tokensOf scanFew mapFew (some fewRegions)).eraseIdx 2) .new 0).1.regions =
      mgr.regions ∧
    mgr.regions.Pairwise (fun r r' ↦ ¬ Clash r r') ∧
    (∀ r ∈ mgr.regions, r.physStart.toNat + r.size.toNat ≤ 2 ^ 64) ∧
    (mgr.enabled = true ↔ mgr.regions ≠ []) := by
  have hparse : parseP2pRegions .new scanFew true mapFew (some fewRegions) =
      (.ok (), (parseP2pRegions .new scanFew true mapFew (some fewRegions)).2) := rfl
  obtain ⟨⟨chosen, hchosen, -, herase⟩, hapart, hwraps, henabled⟩ :=
    parse_keeps (mappable_of_scan scanFew_lt mapFew _) hparse
  have hnone : chosen 2 = false := by
    rw [← Bool.not_eq_true, hchosen 2]
    rintro ⟨region, hoffered, -⟩
    have hno : offered candidate (tokensOf scanFew mapFew (some fewRegions)) 2 = none := by
      decide +kernel
    rw [hno] at hoffered
    cases hoffered
  exact ⟨_, hparse, by decide +kernel, herase 2 hnone, hapart, hwraps, henabled⟩

end Example

end Pciem.P2p.Parse
