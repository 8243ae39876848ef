import Mathlib.Data.Nat.Notation
import Mathlib.Logic.Function.Basic
import Mathlib.Tactic.SplitIfs
import Pciem.Kernel.Errno
import Pciem.Library.Replay

namespace Pciem.P2p.Regions

open Kernel

structure PciemP2pRegion where
  physStart : BitVec 64
  size : BitVec 64
  kaddr : BitVec 64

structure PciemP2pManager where
  regions : List PciemP2pRegion
  maxTransferSize : BitVec 64
  enabled : Bool

def pciemP2pMaxTransfer : BitVec 64 := 16 * 1024 * 1024

def PciemP2pRegion.regionEnd (region : PciemP2pRegion) : BitVec 64 :=
  region.physStart + region.size

/-- The manager that `pciem_p2p_init` makes, before it parses the parameter. -/
def PciemP2pManager.new : PciemP2pManager := ⟨[], pciemP2pMaxTransfer, false⟩

variable (mgr : PciemP2pManager)

def PciemP2pManager.insert (region : PciemP2pRegion) : PciemP2pManager :=
  { mgr with regions := mgr.regions ++ [region] }

section Parse

/-- The test of a new region against one that is there. -/
def Overlap (phys size : BitVec 64) (existing : PciemP2pRegion) : Prop :=
  phys < existing.regionEnd ∧ phys + size > existing.physStart

instance (phys size : BitVec 64) (existing : PciemP2pRegion) :
    Decidable (Overlap phys size existing) := inferInstanceAs (Decidable (_ ∧ _))

/-- The region that a turn of the loop of `parse_p2p_regions` adds. `token` is what `sscanf` has
read, and `kaddr` the mapping, if there is memory for the region and its mapping. -/
def parsedRegion (token : Option (BitVec 64 × BitVec 64)) (kaddr : Option (BitVec 64)) :
    Option PciemP2pRegion :=
  match token with
  | none => none
  | some (phys, size) =>
    if size = 0 ∨ size > 1 <<< 40 then
      none
    else if ∃ existing ∈ mgr.regions, Overlap phys size existing then
      none
    else
      kaddr.map fun kaddr ↦ ⟨phys, size, kaddr⟩

/-- What is read of a token, and the mapping for it. -/
abbrev Token := Option (BitVec 64 × BitVec 64) × Option (BitVec 64)

/-- A turn of the loop, which also counts the regions that it adds. -/
def parseToken (count : ℕ) (token : Option (BitVec 64 × BitVec 64)) (kaddr : Option (BitVec 64)) :
    PciemP2pManager × ℕ :=
  match parsedRegion mgr token kaddr with
  | none => (mgr, count)
  | some region => (mgr.insert region, count + 1)

def parseTokens : List Token → PciemP2pManager → ℕ → PciemP2pManager × ℕ
  | [], mgr, count => (mgr, count)
  | (token, kaddr) :: rest, mgr, count =>
    let (mgr, count) := parseToken mgr count token kaddr
    parseTokens rest mgr count

/-- The tokens of the string. `sscanf` takes a format and a token, and `kaddr` is the mapping for
the token of each number. -/
def scanTokens (sscanf : String → String → Option (BitVec 64 × BitVec 64))
    (kaddr : ℕ → Option (BitVec 64)) (str : String) : List Token :=
  ((str.toList.splitOn ',').map String.ofList).mapIdx fun n token ↦
    ((sscanf "0x%llx:0x%llx" token).or (sscanf "%llx:%llx" token), kaddr n)

/-- `copied` tells whether there is memory for a copy of the string. -/
def parseP2pRegions (sscanf : String → String → Option (BitVec 64 × BitVec 64)) (copied : Bool)
    (kaddr : ℕ → Option (BitVec 64)) (regionsStr : Option String) :
    Except Errno Unit × PciemP2pManager :=
  match regionsStr with
  | none => (.ok (), mgr)
  | some str =>
    if str.length = 0 then
      (.ok (), mgr)
    else if copied = false then
      (.error .enomem, mgr)
    else
      let (mgr, count) := parseTokens (scanTokens sscanf kaddr str) mgr 0
      (.ok (), if count > 0 then { mgr with enabled := true } else mgr)

end Parse

section Calls

/-- `kaddr` is the mapping, if there is memory for the region and its mapping. -/
def pciemP2pRegisterRegion (phys size : BitVec 64) (kaddr : Option (BitVec 64)) :
    Except Errno Unit × PciemP2pManager :=
  if size = 0 ∨ size > pciemP2pMaxTransfer then
    (.error .einval, mgr)
  else
    match kaddr with
    | none => (.error .enomem, mgr)
    | some kaddr => (.ok (), { mgr.insert ⟨phys, size, kaddr⟩ with enabled := true })

def pciemP2pUnregisterRegion (phys : BitVec 64) : Except Errno Unit × PciemP2pManager :=
  if ∃ region ∈ mgr.regions, region.physStart = phys then
    (.ok (), { mgr with regions := mgr.regions.eraseP fun region ↦ region.physStart = phys })
  else
    (.error .enoent, mgr)

def PciemP2pRegion.Has (region : PciemP2pRegion) (physAddr : BitVec 64) : Prop :=
  physAddr ≥ region.physStart ∧ physAddr < region.regionEnd

instance (region : PciemP2pRegion) (physAddr : BitVec 64) : Decidable (region.Has physAddr) :=
  inferInstanceAs (Decidable (_ ∧ _))

def pciemP2pGetRegion (physAddr : BitVec 64) : Option PciemP2pRegion :=
  mgr.regions.find? fun region ↦ region.Has physAddr

/-- The range that a caller of `pciem_p2p_read` or `pciem_p2p_write` asks for. -/
structure Access where
  physAddr : BitVec 64
  len : BitVec 64

def Access.accessEnd (access : Access) : BitVec 64 := access.physAddr + access.len

def PciemP2pRegion.Allows (region : PciemP2pRegion) (access : Access) : Prop :=
  access.physAddr ≥ region.physStart ∧ access.accessEnd ≤ region.regionEnd

instance (region : PciemP2pRegion) (access : Access) : Decidable (region.Allows access) :=
  inferInstanceAs (Decidable (_ ∧ _))

def pciemP2pValidateAccess (access : Access) : Except Errno Unit :=
  if mgr.enabled = false then
    .error .eacces
  else if access.len = 0 ∨ access.len > mgr.maxTransferSize then
    .error .einval
  else if access.accessEnd < access.physAddr then
    .error .einval
  else if ∃ region ∈ mgr.regions, region.Allows access then
    .ok ()
  else
    .error .eacces

/-- Where `memcpy_fromio` and `memcpy_toio` begin in the mapping of the region. -/
def PciemP2pRegion.address (region : PciemP2pRegion) (access : Access) : BitVec 64 :=
  region.kaddr + (access.physAddr - region.physStart)

end Calls

section Run

/-- The manager, and what each thread has had checked and is about to copy. -/
structure Machine (τ : Type) where
  mgr : PciemP2pManager
  checked : τ → Option Access

/-- The steps that threads take, in any order. `parseToken` and `parseEnd` are those of
`parse_p2p_regions`; `check` and `copy` are the critical sections of `pciem_p2p_read` and
`pciem_p2p_write`. -/
inductive Action (τ : Type)
  | parseToken (token : Option (BitVec 64 × BitVec 64)) (kaddr : Option (BitVec 64))
  | parseEnd (count : ℕ)
  | register (phys size : BitVec 64) (kaddr : Option (BitVec 64))
  | unregister (phys : BitVec 64)
  | check (t : τ) (access : Access)
  | copy (t : τ)

variable {τ : Type} [DecidableEq τ]

def step (m : Machine τ) : Action τ → Machine τ
  | .parseToken token kaddr => { m with mgr := (parseToken m.mgr 0 token kaddr).1 }
  | .parseEnd count =>
    { m with mgr := if count > 0 then { m.mgr with enabled := true } else m.mgr }
  | .register phys size kaddr =>
    { m with mgr := (pciemP2pRegisterRegion m.mgr phys size kaddr).2 }
  | .unregister phys => { m with mgr := (pciemP2pUnregisterRegion m.mgr phys).2 }
  | .check t access =>
    match m.checked t, pciemP2pValidateAccess m.mgr access with
    | none, .ok () => { m with checked := Function.update m.checked t (some access) }
    | _, _ => m
  | .copy t => { m with checked := Function.update m.checked t none }

section Refinement

theorem foldl_parseToken (m : Machine τ) (tokens : List Token) (count : ℕ) :
    (tokens.map fun p ↦ Action.parseToken p.1 p.2).foldl step m =
      { m with mgr := (parseTokens tokens m.mgr count).1 } := by
  induction tokens generalizing m count with
  | nil => rfl
  | cons p tokens ih =>
    have hmgr : (parseToken m.mgr 0 p.1 p.2).1 = (parseToken m.mgr count p.1 p.2).1 := by
      unfold parseToken
      split
      · rfl
      · rfl
    rw [List.map_cons, List.foldl_cons, ih _ (parseToken m.mgr count p.1 p.2).2, parseTokens, step,
      hmgr]

/-- To parse the parameter is to take the steps of its tokens, and the last one. -/
theorem parse_run (m : Machine τ) (sscanf : String → String → Option (BitVec 64 × BitVec 64))
    (copied : Bool) (kaddr : ℕ → Option (BitVec 64)) (regionsStr : Option String) :
    ∃ tokens : List Token, ∃ count,
      (tokens.map (fun p : Token ↦ Action.parseToken p.1 p.2) ++
          [Action.parseEnd count]).foldl step m =
        { m with mgr := (parseP2pRegions m.mgr sscanf copied kaddr regionsStr).2 } := by
  cases regionsStr with
  | none => exact ⟨[], 0, rfl⟩
  | some str =>
    rw [parseP2pRegions]
    split_ifs
    · exact ⟨[], 0, rfl⟩
    · exact ⟨[], 0, rfl⟩
    · let tokens := scanTokens sscanf kaddr str
      refine ⟨tokens, (parseTokens tokens m.mgr 0).2, ?_⟩
      rw [List.foldl_append, foldl_parseToken m _ 0]
      rfl

end Refinement

end Run

end Pciem.P2p.Regions
