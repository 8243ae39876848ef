import Pciem.Library.Loop
import Pciem.Library.X64Move
import Pciem.Trace.X86

namespace Pciem.Trace.InsnDecode

open Kernel Library.ByteMemory Library.Loop Library.X64 Context X86

/-- What is read of an instruction: `prefixes` has four bytes, and `rexPrefix` is zero where there
is none. Only the moves are decoded that have none of VEX, EVEX, XOP, REX2 and an emulate
prefix. -/
structure Insn where
  prefixes : List (BitVec 8)
  rexPrefix : BitVec 8
  opcode : List (BitVec 8)
  modrm : BitVec 8
  sib : Option (BitVec 8)
  displacement : BitVec 32
  immediate : BitVec 32
  opndBytes : ℕ
  addrBytes : ℕ
  length : ℕ

/-- The opcodes that `inat_is_legacy_prefix` accepts. -/
def legacyPrefixes : List (BitVec 8) :=
  [0x26, 0x2E, 0x36, 0x3E, 0x64, 0x65, 0x66, 0x67, 0xF0, 0xF2, 0xF3]

/-- `bytes` has as many of the bytes as have been set, and `last` is `lb`. -/
structure Prefixes where
  bytes : List (BitVec 8)
  opndBytes : ℕ
  addrBytes : ℕ
  last : BitVec 8

def Prefixes.init : Prefixes := ⟨[], 4, 8, 0⟩

/-- A prefix that has not been there yet. -/
def Prefixes.push (p : Prefixes) (b : BitVec 8) : Prefixes :=
  if b = 0x67 then ⟨p.bytes ++ [b], p.opndBytes, p.addrBytes ^^^ 12, b⟩
  else if b = 0x66 then ⟨p.bytes ++ [b], p.opndBytes ^^^ 6, p.addrBytes, b⟩
  else ⟨p.bytes ++ [b], p.opndBytes, p.addrBytes, b⟩

/-- The loop of `insn_get_prefixes`. -/
def scanPrefixes (p : Prefixes) : List (BitVec 8) → Option (Prefixes × List (BitVec 8))
  | [] => none
  | b :: bs =>
    if b ∈ legacyPrefixes then
      if b ∈ p.bytes then
        scanPrefixes { p with last := b } bs
      else if p.bytes.length = 4 then
        some (p, b :: bs)
      else
        scanPrefixes (p.push b) bs
    else
      some (p, b :: bs)

/-- The four bytes, once the last prefix has been set. -/
def Prefixes.field (p : Prefixes) : List (BitVec 8) :=
  let bytes := p.bytes ++ List.replicate (4 - p.bytes.length) 0
  let b := bytes.getD 3 0
  if p.last ≠ 0 ∧ p.last ≠ b then
    (if b ≠ 0 then bytes.map fun x ↦ if x = p.last then b else x else bytes).set 3 p.last
  else
    bytes

/-- `REX.W` overrides the size of the operand. -/
def getRex (opndBytes : ℕ) : List (BitVec 8) → Option (BitVec 8 × ℕ × List (BitVec 8))
  | [] => none
  | b :: bs =>
    if b &&& 0xF0 = 0x40 then
      some (b, if b &&& 8 ≠ 0 then 8 else opndBytes, bs)
    else
      some (0, opndBytes, b :: bs)

/-- What `inat_immediate_size` returns. -/
inductive InatImm
  | byte
  | vword32
deriving DecidableEq

/-- The immediate of a move, if it has one. -/
def inatImmediate (opcode : List (BitVec 8)) : Option (Option InatImm) :=
  if opcode ∈ ([[0x88], [0x89], [0x8A], [0x8B], [0x0F, 0xB6], [0x0F, 0xB7], [0x0F, 0xBE],
      [0x0F, 0xBF]] : List (List (BitVec 8))) then some none
  else if opcode = [0xC6] then some (some .byte)
  else if opcode = [0xC7] then some (some .vword32)
  else none

def nextByte : List (BitVec 8) → Option (BitVec 8 × List (BitVec 8))
  | [] => none
  | b :: bs => some (b, bs)

/-- Only the first byte of an opcode is an escape here. -/
def insnGetOpcode (bs : List (BitVec 8)) : Option (List (BitVec 8) × List (BitVec 8)) := do
  let (op, bs) ← nextByte bs
  if op = 0x0F then
    let (op', bs) ← nextByte bs
    some ([op, op'], bs)
  else
    some ([op], bs)

/-- `get_next` with a signed type that has `n` bytes. -/
def getNext (n : ℕ) (bs : List (BitVec 8)) : Option (BitVec 32 × List (BitVec 8)) :=
  if n ≤ bs.length then
    some ((compose ((bs.take n).map (BitVec.setWidth (8 * n)))).signExtend 32, bs.drop n)
  else
    none

def x86ModrmMod (modrm : BitVec 8) : ℕ := ((modrm &&& 0xc0) >>> 6).toNat

def x86ModrmReg (modrm : BitVec 8) : ℕ := ((modrm &&& 0x38) >>> 3).toNat

def x86ModrmRm (modrm : BitVec 8) : ℕ := (modrm &&& 0x07).toNat

def x86SibScale (sib : BitVec 8) : ℕ := ((sib &&& 0xc0) >>> 6).toNat

def x86SibIndex (sib : BitVec 8) : ℕ := ((sib &&& 0x38) >>> 3).toNat

def x86SibBase (sib : BitVec 8) : ℕ := (sib &&& 0x07).toNat

/-- An address has never two bytes here. -/
def getSib (modrm : BitVec 8) (bs : List (BitVec 8)) :
    Option (Option (BitVec 8) × List (BitVec 8)) :=
  if x86ModrmMod modrm ≠ 3 ∧ x86ModrmRm modrm = 4 then
    (nextByte bs).map fun b ↦ (some b.1, b.2)
  else
    some (none, bs)

def getDisplacement (modrm : BitVec 8) (sib : Option (BitVec 8)) (bs : List (BitVec 8)) :
    Option (BitVec 32 × List (BitVec 8)) :=
  let mod := x86ModrmMod modrm
  let rm := x86ModrmRm modrm
  let base := x86SibBase (sib.getD 0)
  if mod = 3 then some (0, bs)
  else if mod = 1 then getNext 1 bs
  else if (mod = 0 ∧ rm = 5) ∨ mod = 2 ∨ (mod = 0 ∧ base = 5) then getNext 4 bs
  else some (0, bs)

def getImmv32 (opndBytes : ℕ) (bs : List (BitVec 8)) : Option (BitVec 32 × List (BitVec 8)) :=
  if opndBytes = 2 then getNext 2 bs
  else if opndBytes = 4 ∨ opndBytes = 8 then getNext 4 bs
  else none

def getImmediate (imm : Option InatImm) (opndBytes : ℕ) (bs : List (BitVec 8)) :
    Option (BitVec 32 × List (BitVec 8)) :=
  match imm with
  | none => some (0, bs)
  | some .byte => getNext 1 bs
  | some .vword32 => getImmv32 opndBytes bs

/-- There is nothing where the decoder fails, or finds another instruction than a move. -/
def insnDecode (buf : List (BitVec 8)) : Option Insn := do
  let (p, bs) ← scanPrefixes .init buf
  let (rexPrefix, opndBytes, bs) ← getRex p.opndBytes bs
  let (opcode, bs) ← insnGetOpcode bs
  let imm ← inatImmediate opcode
  let (modrm, bs) ← nextByte bs
  let (sib, bs) ← getSib modrm bs
  let (displacement, bs) ← getDisplacement modrm sib bs
  let (immediate, bs) ← getImmediate imm opndBytes bs
  some ⟨p.field, rexPrefix, opcode, modrm, sib, displacement, immediate, opndBytes, p.addrBytes,
    buf.length - bs.length⟩

/-- The type and the number of bytes. -/
def insnDecodeMmio (insn : Insn) : InsnMmioType × ℕ :=
  match insn.opcode with
  | [0x88] => (.write, 1)
  | [0x89] => (.write, insn.opndBytes)
  | [0xC6] => (.writeImm, 1)
  | [0xC7] => (.writeImm, insn.opndBytes)
  | [0x8A] => (.read, 1)
  | [0x8B] => (.read, insn.opndBytes)
  | [0x0F, 0xB6] => (.readZeroExtend, 1)
  | [0x0F, 0xB7] => (.readZeroExtend, 2)
  | [0x0F, 0xBE] => (.readSignExtend, 1)
  | [0x0F, 0xBF] => (.readSignExtend, 2)
  | _ => (.decodeFailed, 0)

inductive RegType
  | rm
  | reg
  | index
  | base

/-- There is no number where the result is `-EDOM`. A number is below 16, so there is no other
error. -/
def getRegno (insn : Insn) : RegType → Option ℕ
  | .rm =>
    if x86ModrmMod insn.modrm = 0 ∧ x86ModrmRm insn.modrm = 5 then none
    else some (x86ModrmRm insn.modrm + if insn.rexPrefix &&& 1 ≠ 0 then 8 else 0)
  | .reg => some (x86ModrmReg insn.modrm + if insn.rexPrefix &&& 4 ≠ 0 then 8 else 0)
  | .index =>
    let regno := x86SibIndex (insn.sib.getD 0) + if insn.rexPrefix &&& 2 ≠ 0 then 8 else 0
    if x86ModrmMod insn.modrm ≠ 3 ∧ regno = 4 then none else some regno
  | .base =>
    if x86ModrmMod insn.modrm = 0 ∧ x86SibBase (insn.sib.getD 0) = 5 then none
    else some (x86SibBase (insn.sib.getD 0) + if insn.rexPrefix &&& 1 ≠ 0 then 8 else 0)

def getEffAddrModrm (insn : Insn) (regs : PtRegs) : BitVec 64 :=
  let tmp := match getRegno insn .rm with
    | none => regs.ip + BitVec.ofNat 64 insn.length
    | some r => regs.gpr r
  if insn.addrBytes = 4 then (tmp.setWidth 32 + insn.displacement).setWidth 64
  else tmp + insn.displacement.signExtend 64

def getEffAddrSib (insn : Insn) (regs : PtRegs) : BitVec 64 :=
  let base := ((getRegno insn .base).map regs.gpr).getD 0
  let indx := ((getRegno insn .index).map regs.gpr).getD 0
  let scale := 1 <<< x86SibScale (insn.sib.getD 0)
  if insn.addrBytes = 4 then
    (base.setWidth 32 + indx.setWidth 32 * BitVec.ofNat 32 scale + insn.displacement).setWidth 64
  else
    base + indx * BitVec.ofNat 64 scale + insn.displacement.signExtend 64

/-- The operand is in memory. -/
def getEffAddr (insn : Insn) (regs : PtRegs) : BitVec 64 :=
  if insn.sib.isSome then getEffAddrSib insn regs else getEffAddrModrm insn regs

/-- `INAT_SEG_REG_IGNORE` to `INAT_SEG_REG_GS` -/
inductive InatSegReg
  | ignore
  | default
  | cs
  | ss
  | ds
  | es
  | fs
  | gs
deriving DecidableEq

def InatSegReg.value : InatSegReg → ℕ
  | ignore => 0
  | default => 1
  | cs => 2
  | ss => 3
  | ds => 4
  | es => 5
  | fs => 6
  | gs => 7

/-- The segment registers, with the bases in `MSR_FS_BASE` and `MSR_GS_BASE`. -/
structure Segments where
  sel : InatSegReg → BitVec 16
  fsBase : BitVec 64
  gsBase : BitVec 64

def inatSegment (b : BitVec 8) : Option InatSegReg :=
  if b = 0x2E then some .cs
  else if b = 0x36 then some .ss
  else if b = 0x3E then some .ds
  else if b = 0x26 then some .es
  else if b = 0x64 then some .fs
  else if b = 0x65 then some .gs
  else none

/-- `for_each_insn_prefix` has an `idx` of its own as its cursor, and this is what an override
sets. -/
structure Cursor where
  idx : ℕ
  numOverrides : ℕ

def overrideStep (prefixes : List (BitVec 8)) (s : Cursor) : Cursor ⊕ ℕ :=
  let p := prefixes.getD s.idx 0
  if s.idx < 4 ∧ p ≠ 0 then
    match inatSegment p with
    | some seg => .inl ⟨seg.value + 1, s.numOverrides + 1⟩
    | none => .inl ⟨s.idx + 1, s.numOverrides⟩
  else
    .inr s.numOverrides

/-- The outer `idx` stays what it has been. There is no result where the loop does not end, which it
does after six iterations or never. -/
def getSegRegOverrideIdx (insn : Insn) : Option (Except Errno InatSegReg) :=
  (run (overrideStep insn.prefixes) 6 ⟨0, 0⟩).map fun numOverrides ↦
    if numOverrides > 1 then .error .einval else .ok .default

/-- The kernel is in long mode. -/
def resolveDefaultSeg : InatSegReg := .ignore

def resolveSegReg (insn : Insn) : Option (Except Errno InatSegReg) :=
  (getSegRegOverrideIdx insn).map fun r ↦ r.map fun idx ↦
    if idx = .default then resolveDefaultSeg
    else if idx ≠ .fs ∧ idx ≠ .gs then .ignore
    else idx

/-- A selector is a `short`, and so is `-EINVAL`. -/
def getSegmentSelector (segs : Segments) : InatSegReg → BitVec 16
  | .ignore => 0
  | .default => -22
  | seg => segs.sel seg

def insnGetSegBase (segs : Segments) (idx : InatSegReg) : BitVec 64 :=
  if (getSegmentSelector segs idx).msb then -1
  else if idx = .fs then segs.fsBase
  else if idx = .gs then segs.gsBase
  else 0

def getSegLimit (segs : Segments) (idx : InatSegReg) : BitVec 64 :=
  if (getSegmentSelector segs idx).msb then 0 else -1

/-- The limit is not looked at where an address has eight bytes. -/
def getSegBaseLimit (insn : Insn) (segs : Segments) : Option (Except Errno (BitVec 64)) :=
  (resolveSegReg insn).map fun r ↦ r.bind fun idx ↦
    let base := insnGetSegBase segs idx
    if base = -1 then .error .einval
    else if insn.addrBytes = 4 ∧ getSegLimit segs idx = 0 then .error .einval
    else .ok base

/-- An error is an address, too. -/
def insnGetAddrRef (insn : Insn) (regs : PtRegs) (segs : Segments) : Option (BitVec 64) :=
  (getSegBaseLimit insn segs).map fun r ↦
    match r with
    | .error _ => -1
    | .ok base =>
      if insn.addrBytes = 4 then ((getEffAddr insn regs).setWidth 32).setWidth 64 + base
      else getEffAddr insn regs + base

/-- What the decoder makes of the instruction, once it has its address. -/
def decodedInsn (insn : Insn) (addr : BitVec 64) : DecodedInsn :=
  ⟨(insnDecodeMmio insn).1, (insnDecodeMmio insn).2, insn.opndBytes, insn.immediate,
    getRegno insn .reg, addr, insn.length⟩

/-- `emulate_pf_instruction` on the bytes at the instruction pointer. There is no result where the
kernel runs into `BUG`, or never gets an address. -/
def emulateBytes (buf : List (BitVec 8)) (segs : Segments) (ctx : SmptraceCtx) (map : SmptraceMap)
    (regs : PtRegs) (s : Traced) : Option (Except Errno Unit × PtRegs × Traced) :=
  match insnDecode buf with
  | none => some (.error .einval, regs, s)
  | some insn => do
    let addr ← insnGetAddrRef insn regs segs
    emulatePfInstruction false (.ok (decodedInsn insn addr)) ctx map regs s

section Scan

variable {p p' : Prefixes} {qs ps bs bs' : List (BitVec 8)} {b : BitVec 8}

/-- What the loop knows of the prefixes that it has been through. -/
structure Scanned (p : Prefixes) (qs : List (BitVec 8)) : Prop where
  bytes : p.bytes = qs.eraseDups
  length : p.bytes.length ≤ 4
  opnd : p.opndBytes = if 0x66 ∈ qs then 2 else 4
  addr : p.addrBytes = if 0x67 ∈ qs then 4 else 8
  last : p.last = qs.getLastD 0

theorem scanned_init : Scanned .init [] where
  bytes := rfl
  length := Nat.zero_le 4
  opnd := rfl
  addr := rfl
  last := rfl

theorem Scanned.mem_iff (h : Scanned p qs) (b : BitVec 8) : b ∈ p.bytes ↔ b ∈ qs := by
  rw [h.bytes, List.mem_eraseDups]

theorem eraseDups_concat (qs : List (BitVec 8)) (b : BitVec 8) :
    (qs ++ [b]).eraseDups = if b ∈ qs then qs.eraseDups else qs.eraseDups ++ [b] := by
  rw [List.eraseDups_append, List.cons_removeAll, List.nil_removeAll]
  by_cases hb : b ∈ qs
  · rw [if_pos hb, if_neg (by simpa using hb), List.eraseDups_nil, List.append_nil]
  · rw [if_neg hb, if_pos (by simpa using hb)]
    rfl

theorem Scanned.again (h : Scanned p qs) (hb : b ∈ p.bytes) :
    Scanned { p with last := b } (qs ++ [b]) := by
  have hqs := (h.mem_iff b).mp hb
  have hmem (x : BitVec 8) : x ∈ qs ++ [b] ↔ x ∈ qs := by
    constructor
    · intro hx
      rcases List.mem_append.mp hx with hx | hx
      · exact hx
      · rwa [List.mem_singleton.mp hx]
    · exact List.mem_append_left [b]
  refine ⟨?_, h.length, ?_, ?_, ?_⟩
  · rw [eraseDups_concat, if_pos hqs]
    exact h.bytes
  · simp only [hmem]
    exact h.opnd
  · simp only [hmem]
    exact h.addr
  · simp

theorem bytes_push (p : Prefixes) (b : BitVec 8) : (p.push b).bytes = p.bytes ++ [b] := by
  unfold Prefixes.push
  split_ifs
  · rfl
  · rfl
  · rfl

theorem last_push (p : Prefixes) (b : BitVec 8) : (p.push b).last = b := by
  unfold Prefixes.push
  split_ifs
  · rfl
  · rfl
  · rfl

theorem opndBytes_push (p : Prefixes) (b : BitVec 8) :
    (p.push b).opndBytes = if b = 0x66 then p.opndBytes ^^^ 6 else p.opndBytes := by
  unfold Prefixes.push
  by_cases h67 : b = 0x67
  · rw [if_pos h67, if_neg (by rw [h67]; decide)]
  · rw [if_neg h67]
    split_ifs
    · rfl
    · rfl

theorem addrBytes_push (p : Prefixes) (b : BitVec 8) :
    (p.push b).addrBytes = if b = 0x67 then p.addrBytes ^^^ 12 else p.addrBytes := by
  unfold Prefixes.push
  by_cases h67 : b = 0x67
  · rw [if_pos h67, if_pos h67]
  · rw [if_neg h67, if_neg h67]
    split_ifs
    · rfl
    · rfl

theorem Scanned.push (h : Scanned p qs) (hb : b ∉ p.bytes) (hlength : p.bytes.length ≠ 4) :
    Scanned (p.push b) (qs ++ [b]) := by
  have hqs : b ∉ qs := fun hmem ↦ hb ((h.mem_iff b).mpr hmem)
  have hmem {x : BitVec 8} (hne : x ≠ b) : x ∈ qs ++ [b] ↔ x ∈ qs := by
    rw [List.mem_append, List.mem_singleton, or_iff_left hne]
  have hle := h.length
  refine ⟨?_, ?_, ?_, ?_, ?_⟩
  · rw [bytes_push, eraseDups_concat, if_neg hqs, h.bytes]
  · rw [bytes_push, List.length_append, List.length_singleton]
    omega
  · rw [opndBytes_push, h.opnd]
    by_cases h66 : b = 0x66
    · rw [if_pos h66, if_neg (h66 ▸ hqs), if_pos (by simp [h66])]
      rfl
    · rw [if_neg h66]
      exact if_congr (hmem (Ne.symm h66)).symm rfl rfl
  · rw [addrBytes_push, h.addr]
    by_cases h67 : b = 0x67
    · rw [if_pos h67, if_neg (h67 ▸ hqs), if_pos (by simp [h67])]
      rfl
    · rw [if_neg h67]
      exact if_congr (hmem (Ne.symm h67)).symm rfl rfl
  · rw [last_push]
    simp

/-- The loop goes through all of the prefixes, or stops at a fifth one. -/
theorem scanPrefixes_cases (hp : Scanned p qs) (hps : ps ⊆ legacyPrefixes)
    (hb : b ∉ legacyPrefixes) (h : scanPrefixes p (ps ++ b :: bs) = some (p', bs')) :
    (Scanned p' (qs ++ ps) ∧ bs' = b :: bs) ∨ ∃ c ∈ legacyPrefixes, ∃ cs, bs' = c :: cs := by
  induction ps generalizing p qs with
  | nil =>
    rw [List.nil_append, scanPrefixes, if_neg hb] at h
    cases h
    rw [List.append_nil]
    exact .inl ⟨hp, rfl⟩
  | cons c ps ih =>
    obtain ⟨hc, hps⟩ := List.cons_subset.mp hps
    rw [List.append_cons]
    rw [List.cons_append, scanPrefixes, if_pos hc] at h
    by_cases hmem : c ∈ p.bytes
    · rw [if_pos hmem] at h
      exact ih (hp.again hmem) hps h
    · rw [if_neg hmem] at h
      by_cases hlength : p.bytes.length = 4
      · rw [if_pos hlength] at h
        cases h
        exact .inr ⟨c, hc, _, rfl⟩
      · rw [if_neg hlength] at h
        exact ih (hp.push hmem hlength) hps h

end Scan

section Overrides

variable {prefixes : List (BitVec 8)} {idx n : ℕ} {seg : InatSegReg} {p : Prefixes}
  {qs : List (BitVec 8)}

def firstOverride (prefixes : List (BitVec 8)) : Option InatSegReg :=
  (prefixes.takeWhile (· ≠ 0)).findSome? inatSegment

/-- The first override is that of `cs`, which sets the cursor to the last byte, and the last byte is
an override, too. -/
def LoopsBack (prefixes : List (BitVec 8)) : Prop :=
  firstOverride prefixes = some .cs ∧ inatSegment (prefixes.getD 3 0) ≠ none

instance decidableLoopsBack (prefixes : List (BitVec 8)) : Decidable (LoopsBack prefixes) :=
  inferInstanceAs (Decidable (_ ∧ _))

theorem overrideStep_end (h : idx < 4 → prefixes.getD idx 0 = 0) :
    overrideStep prefixes ⟨idx, n⟩ = .inr n :=
  if_neg fun hand ↦ hand.2 (h hand.1)

theorem overrideStep_other (hidx : idx < 4) (h0 : prefixes.getD idx 0 ≠ 0)
    (h : inatSegment (prefixes.getD idx 0) = none) :
    overrideStep prefixes ⟨idx, n⟩ = .inl ⟨idx + 1, n⟩ := by
  unfold overrideStep
  simp only [h]
  exact if_pos ⟨hidx, h0⟩

theorem overrideStep_override (hidx : idx < 4)
    (h : inatSegment (prefixes.getD idx 0) = some seg) :
    overrideStep prefixes ⟨idx, n⟩ = .inl ⟨seg.value + 1, n + 1⟩ := by
  have h0 : prefixes.getD idx 0 ≠ 0 := by
    intro h0
    rw [h0] at h
    cases h
  unfold overrideStep
  simp only [h]
  exact if_pos ⟨hidx, h0⟩

/-- The cursor goes to the first override, which sets it, or to the end. -/
theorem reach_firstOverride {rest : List (BitVec 8)} (hrest : prefixes.drop idx = rest)
    (h4 : idx + rest.length = 4) :
    (firstOverride rest = none → ∀ m,
      run (overrideStep prefixes) (m + rest.length + 1) ⟨idx, 0⟩ = some 0) ∧
    ∀ seg, firstOverride rest = some seg → ∃ k ≤ rest.length,
      (∀ m, run (overrideStep prefixes) (m + k) ⟨idx, 0⟩ =
        run (overrideStep prefixes) m ⟨seg.value + 1, 1⟩) ∧
      (Terminates (overrideStep prefixes) ⟨idx, 0⟩ ↔
        Terminates (overrideStep prefixes) ⟨seg.value + 1, 1⟩) := by
  induction rest generalizing idx with
  | nil =>
    simp only [List.length_nil] at h4
    refine ⟨fun _ m ↦ run_of_inr (overrideStep_end fun hidx ↦ by omega) m, fun seg hseg ↦ ?_⟩
    cases hseg
  | cons b rest ih =>
    rw [List.length_cons] at h4
    have hidx : idx < 4 := by omega
    have hb : prefixes.getD idx 0 = b := by
      rw [List.getD_eq_getElem?_getD, ← List.head?_drop, hrest]
      rfl
    have htail : prefixes.drop (idx + 1) = rest := by
      rw [← List.drop_drop, hrest]
      rfl
    by_cases h0 : b = 0
    · have hfirst : firstOverride (b :: rest) = none := by
        rw [firstOverride, List.takeWhile_cons_of_neg (by simpa using h0)]
        rfl
      refine ⟨fun _ m ↦ run_of_inr (overrideStep_end fun _ ↦ hb.trans h0) _, fun seg hseg ↦ ?_⟩
      cases hfirst.symm.trans hseg
    · have hfirst : firstOverride (b :: rest) =
          (inatSegment b).or (firstOverride rest) := by
        rw [firstOverride, List.takeWhile_cons_of_pos (by simpa using h0), List.findSome?_cons]
        cases inatSegment b with
        | none => rfl
        | some seg => rfl
      rw [hfirst]
      cases hb' : inatSegment b with
      | none =>
        have hstep : overrideStep prefixes ⟨idx, 0⟩ = .inl ⟨idx + 1, 0⟩ :=
          overrideStep_other hidx (hb ▸ h0) (hb ▸ hb')
        obtain ⟨hnone, hsome⟩ := ih htail (by omega)
        rw [Option.none_or]
        refine ⟨fun h m ↦ (run_of_inl hstep _).trans (hnone h m), fun seg hseg ↦ ?_⟩
        obtain ⟨k, hk, hrun, hends⟩ := hsome seg hseg
        exact ⟨k + 1, Nat.succ_le_succ hk, fun m ↦ (run_of_inl hstep _).trans (hrun m),
          (terminates_iff_of_inl hstep).trans hends⟩
      | some seg =>
        have hstep := overrideStep_override (n := 0) hidx (hb ▸ hb')
        refine ⟨fun h ↦ ?_, fun seg' hseg ↦ ?_⟩
        · cases h
        cases hseg
        exact ⟨1, Nat.le_add_left 1 _, fun m ↦ run_of_inl hstep m, terminates_iff_of_inl hstep⟩

/-- Every override but that of `cs` sets the cursor to the end. -/
theorem value_of_ne_cs {b : BitVec 8} (h : inatSegment b = some seg) (hcs : seg ≠ .cs) :
    4 ≤ seg.value + 1 := by
  unfold inatSegment at h
  split_ifs at h
  · cases h
    exact absurd rfl hcs
  all_goals
    cases h
    decide

theorem firstOverride_of_mem (h : firstOverride prefixes = some seg) :
    ∃ b, inatSegment b = some seg := by
  obtain ⟨b, -, hb⟩ := List.exists_of_findSome?_eq_some h
  exact ⟨b, hb⟩

theorem run_end (h : 4 ≤ idx) (m : ℕ) : run (overrideStep prefixes) (m + 1) ⟨idx, n⟩ = some n :=
  run_of_inr (overrideStep_end fun hlt ↦ by omega) m

theorem overrides_settled (h4 : prefixes.length = 4) (h : ¬ LoopsBack prefixes) :
    ∃ n ≤ 1, run (overrideStep prefixes) 6 ⟨0, 0⟩ = some n := by
  obtain ⟨hnone, hsome⟩ := reach_firstOverride (List.drop_zero (l := prefixes))
    (show 0 + prefixes.length = 4 by omega)
  cases hfirst : firstOverride prefixes with
  | none =>
    have hrun := hnone hfirst 1
    rw [h4] at hrun
    exact ⟨0, Nat.zero_le 1, hrun⟩
  | some seg =>
    obtain ⟨k, hk, hrun, -⟩ := hsome seg hfirst
    obtain ⟨m, hm⟩ := Nat.exists_eq_add_of_le (show k + 2 ≤ 6 by omega)
    have hrun := hrun (m + 2)
    rw [show m + 2 + k = 6 by omega] at hrun
    rw [hrun]
    refine ⟨1, le_rfl, ?_⟩
    by_cases hcs : seg = .cs
    · subst hcs
      have hlast : inatSegment (prefixes.getD 3 0) = none := by
        by_contra hlast
        exact h ⟨hfirst, hlast⟩
      by_cases h0 : prefixes.getD 3 0 = 0
      · exact run_of_inr (overrideStep_end fun _ ↦ h0) _
      · exact (run_of_inl (overrideStep_other (by decide) h0 hlast) _).trans (run_end (le_refl 4) m)
    · obtain ⟨b, hb⟩ := firstOverride_of_mem hfirst
      exact run_end (value_of_ne_cs hb hcs) _

/-- The four bytes that are kept of the prefixes: the first ones of each kind, and the last one of
all at the end. -/
def keptPrefixes (qs : List (BitVec 8)) : List (BitVec 8) :=
  Prefixes.field ⟨qs.eraseDups, 4, 8, qs.getLastD 0⟩

/-- The loop ends with two overrides, or never. -/
theorem overrides_stuck (h4 : prefixes.length = 4) (h : LoopsBack prefixes) :
    (run (overrideStep prefixes) 6 ⟨0, 0⟩ = some 2) ∨
      run (overrideStep prefixes) 6 ⟨0, 0⟩ = none ∧
        ¬ Terminates (overrideStep prefixes) ⟨0, 0⟩ := by
  obtain ⟨hfirst, hlast⟩ := h
  obtain ⟨k, hk, hrun, hends⟩ := (reach_firstOverride (List.drop_zero (l := prefixes))
    (show 0 + prefixes.length = 4 by omega)).2 .cs hfirst
  obtain ⟨m, hm⟩ := Nat.exists_eq_add_of_le (show k + 2 ≤ 6 by omega)
  obtain ⟨seg, hseg⟩ := Option.ne_none_iff_exists'.mp hlast
  have hstep {n : ℕ} := overrideStep_override (n := n) (by decide) hseg
  by_cases hcs : seg = .cs
  · subst hcs
    have hforever : ¬ Terminates (overrideStep prefixes) ⟨0, 0⟩ := by
      rw [hends]
      refine not_terminates_of_forever (I := fun s ↦ s.idx = 3) rfl fun s hs ↦ ?_
      obtain ⟨idx, n⟩ := s
      cases hs
      exact ⟨_, hstep, rfl⟩
    refine .inr ⟨?_, hforever⟩
    cases hresult : run (overrideStep prefixes) 6 ⟨0, 0⟩ with
    | none => rfl
    | some r => exact absurd ⟨6, r, hresult⟩ hforever
  · have hrun := hrun (m + 2)
    rw [show m + 2 + k = 6 by omega] at hrun
    rw [hrun]
    exact .inl ((run_of_inl hstep _).trans (run_end (value_of_ne_cs hseg hcs) m))

/-- One `cs` is kept twice, and found for ever. -/
example : run (overrideStep (keptPrefixes [0x2E])) 6 ⟨0, 0⟩ = none := by
  decide

theorem Scanned.field_eq (h : Scanned p qs) : p.field = keptPrefixes qs := by
  rw [keptPrefixes, ← h.bytes, ← h.last]
  rfl

theorem length_field (h : p.bytes.length ≤ 4) : p.field.length = 4 := by
  unfold Prefixes.field
  simp only
  split_ifs
  · simp
    omega
  · simp
    omega
  · simp
    omega

end Overrides

section Fields

variable (i : Move) {p : Prefixes} {insn : Insn} {bs rest : List (BitVec 8)}

def rexByte : BitVec 8 := (i.rex.map ((0x4 : BitVec 4) ++ ·)).getD 0

def opndSize : ℕ := if i.rexBit Move.rexW then 8 else if 0x66 ∈ i.prefixes then 2 else 4

def modrmByte : BitVec 8 := i.mod ++ i.reg ++ i.rm

def sibByte : Option (BitVec 8) :=
  if i.HasIndex then some (i.scale ++ i.index ++ i.base) else none

/-- What the decoder is to read of a move. -/
def insnOf (p : Prefixes) : Insn where
  prefixes := p.field
  rexPrefix := rexByte i
  opcode := i.op.opcode
  modrm := modrmByte i
  sib := sibByte i
  displacement := (i.displacement.setWidth (8 * i.displacementSize)).signExtend 32
  immediate := (i.immediate.setWidth (8 * i.immediateSize)).signExtend 32
  opndBytes := opndSize i
  addrBytes := p.addrBytes
  length := i.encode.length

section Bits

theorem x86ModrmMod_append : ∀ (a : BitVec 2) (b c : BitVec 3),
    x86ModrmMod (a ++ b ++ c) = a.toNat := by
  decide

theorem x86ModrmReg_append : ∀ (a : BitVec 2) (b c : BitVec 3),
    x86ModrmReg (a ++ b ++ c) = b.toNat := by
  decide

theorem x86ModrmRm_append : ∀ (a : BitVec 2) (b c : BitVec 3),
    x86ModrmRm (a ++ b ++ c) = c.toNat := by
  decide

@[simp]
theorem mod_modrmByte : x86ModrmMod (modrmByte i) = i.mod.toNat := x86ModrmMod_append ..

@[simp]
theorem reg_modrmByte : x86ModrmReg (modrmByte i) = i.reg.toNat := x86ModrmReg_append ..

@[simp]
theorem rm_modrmByte : x86ModrmRm (modrmByte i) = i.rm.toNat := x86ModrmRm_append ..

theorem scale_sibByte (h : i.HasIndex) : x86SibScale ((sibByte i).getD 0) = i.scale.toNat := by
  rw [sibByte, if_pos h]
  exact x86ModrmMod_append ..

theorem index_sibByte (h : i.HasIndex) : x86SibIndex ((sibByte i).getD 0) = i.index.toNat := by
  rw [sibByte, if_pos h]
  exact x86ModrmReg_append ..

theorem base_sibByte (h : i.HasIndex) : x86SibBase ((sibByte i).getD 0) = i.base.toNat := by
  rw [sibByte, if_pos h]
  exact x86ModrmRm_append ..

theorem rex_and : ∀ (b : BitVec 4) (k : Fin 4),
    (((0x4 : BitVec 4) ++ b) &&& BitVec.twoPow 8 k ≠ 0) ↔ b.getLsbD k = true := by
  decide

theorem rexByte_and {k : ℕ} (hk : k < 4) :
    rexByte i &&& BitVec.twoPow 8 k ≠ 0 ↔ i.rexBit k = true := by
  cases hrex : i.rex with
  | none => simp [rexByte, Move.rexBit, hrex]
  | some b =>
    rw [rexByte, Move.rexBit, hrex]
    exact rex_and b ⟨k, hk⟩

end Bits

section Stages

theorem opcode_eq_cons (op : MoveOp) :
    ∃ b bs, op.opcode = b :: bs ∧ ¬ b &&& 0xF0 = 0x40 ∧ b ∉ legacyPrefixes := by
  cases op with
  | registerByte | register | immediateByte | immediate | loadByte | load | zeroExtendByte
  | zeroExtendWord | signExtendByte | signExtendWord =>
    exact ⟨_, _, rfl, by decide, by decide⟩

theorem getRex_encode (n : ℕ) : getRex n ((i.rex.map ((0x4 : BitVec 4) ++ ·)).toList ++
      (i.op.opcode ++ bs)) =
    some (rexByte i, if i.rexBit Move.rexW then 8 else n, i.op.opcode ++ bs) := by
  cases hrex : i.rex with
  | none =>
    obtain ⟨b, bs', hop, hb, -⟩ := opcode_eq_cons i.op
    rw [Option.map_none, Option.toList_none, List.nil_append, hop, List.cons_append, getRex,
      if_neg hb, rexByte, Move.rexBit, hrex]
    rfl
  | some b =>
    have hmask : ∀ b : BitVec 4, ((0x4 : BitVec 4) ++ b : BitVec 8) &&& 0xF0 = 0x40 := by decide
    have hbit := rexByte_and i (k := Move.rexW) (by decide)
    have hbyte : rexByte i = (0x4 : BitVec 4) ++ b := by rw [rexByte, hrex]; rfl
    rw [hbyte] at hbit ⊢
    rw [Option.map_some, Option.toList_some, List.singleton_append, getRex, if_pos (hmask b)]
    exact congrArg (fun n ↦ some (_, n, _)) (if_congr hbit rfl rfl)

/-- The immediate of each of the moves. -/
def immediateOf : MoveOp → Option InatImm
  | .immediateByte => some .byte
  | .immediate => some .vword32
  | _ => none

theorem inatImmediate_opcode (op : MoveOp) : inatImmediate op.opcode = some (immediateOf op) := by
  cases op with
  | registerByte | register | immediateByte | immediate | loadByte | load | zeroExtendByte
  | zeroExtendWord | signExtendByte | signExtendWord => rfl

theorem insnGetOpcode_encode (op : MoveOp) :
    insnGetOpcode (op.opcode ++ bs) = some (op.opcode, bs) := by
  cases op with
  | registerByte | register | immediateByte | immediate | loadByte | load | zeroExtendByte
  | zeroExtendWord | signExtendByte | signExtendWord => rfl

theorem getSib_encode (hmod : i.mod.toNat ≠ 3) : getSib (modrmByte i)
      ((if i.HasIndex then [i.scale ++ i.index ++ i.base] else []) ++ bs) =
    some (sibByte i, bs) := by
  rw [getSib, mod_modrmByte, rm_modrmByte, sibByte]
  by_cases h : i.HasIndex
  · rw [if_pos h, if_pos h, if_pos ⟨hmod, h⟩]
    rfl
  · rw [if_neg h, if_neg h, if_neg fun hand ↦ h hand.2]
    rfl

theorem signExtend_zero (x : BitVec 32) : (x.setWidth (8 * 0)).signExtend 32 = 0 := by
  rw [BitVec.eq_nil (x.setWidth (8 * 0))]
  rfl

theorem getNext_bytes (value : BitVec 32) (n : ℕ) :
    getNext n (bytes value n ++ bs) = some ((value.setWidth (8 * n)).signExtend 32, bs) := by
  have hlength := length_bytes value n
  rw [getNext, if_pos (by simp), List.take_left' hlength, List.drop_left' hlength,
    compose_low_bytes value le_rfl]

theorem getDisplacement_encode (hmod : i.mod.toNat ≠ 3) : getDisplacement (modrmByte i) (sibByte i)
      (bytes i.displacement i.displacementSize ++ bs) =
    some ((i.displacement.setWidth (8 * i.displacementSize)).signExtend 32, bs) := by
  have hbase : x86SibBase ((sibByte i).getD 0) = 5 ↔ i.HasIndex ∧ i.base.toNat = 5 := by
    by_cases h : i.HasIndex
    · rw [base_sibByte i h, and_iff_right h]
    · rw [sibByte, if_neg h]
      exact iff_of_false (by decide) fun hand ↦ h hand.1
  simp only [getDisplacement, mod_modrmByte, rm_modrmByte, hbase, if_neg hmod]
  by_cases h1 : i.mod.toNat = 1
  · have hsize : i.displacementSize = 1 := if_pos h1
    rw [if_pos h1, hsize, getNext_bytes]
  · have hor : (i.mod.toNat = 0 ∧ i.rm.toNat = 5 ∨ i.mod.toNat = 2 ∨
        i.mod.toNat = 0 ∧ i.HasIndex ∧ i.base.toNat = 5) ↔
        i.mod.toNat = 2 ∨ (i.mod.toNat = 0 ∧ (i.rm.toNat = 5 ∨
          (i.HasIndex ∧ i.base.toNat = 5))) := by
      tauto
    rw [if_neg h1, if_congr hor rfl rfl]
    by_cases h4 : i.mod.toNat = 2 ∨ (i.mod.toNat = 0 ∧ (i.rm.toNat = 5 ∨
        (i.HasIndex ∧ i.base.toNat = 5)))
    · have hsize : i.displacementSize = 4 := (if_neg h1).trans (if_pos h4)
      rw [if_pos h4, hsize, getNext_bytes]
    · have hsize : i.displacementSize = 0 := (if_neg h1).trans (if_neg h4)
      rw [if_neg h4, hsize, signExtend_zero]
      rfl

theorem opndSize_eq : opndSize i = i.operand.size := by
  unfold opndSize Move.operand
  split_ifs
  · rfl
  · rfl
  · rfl

theorem operand_eq_word : i.operand = .word ↔ opndSize i = 2 := by
  rw [opndSize_eq]
  cases i.operand with
  | byte | word | dword | qword => decide

theorem opndSize_cases : opndSize i = 2 ∨ opndSize i = 4 ∨ opndSize i = 8 := by
  unfold opndSize
  split_ifs
  · exact .inr (.inr rfl)
  · exact .inl rfl
  · exact .inr (.inl rfl)

theorem getImmediate_encode : getImmediate (immediateOf i.op) (opndSize i)
      (bytes i.immediate i.immediateSize ++ bs) =
    some ((i.immediate.setWidth (8 * i.immediateSize)).signExtend 32, bs) := by
  cases hop : i.op with
  | registerByte | register | loadByte | load | zeroExtendByte | zeroExtendWord | signExtendByte
  | signExtendWord =>
    have hsize : i.immediateSize = 0 := by rw [Move.immediateSize, hop]
    rw [hsize, signExtend_zero]
    rfl
  | immediateByte =>
    have hsize : i.immediateSize = 1 := by rw [Move.immediateSize, hop]
    rw [hsize]
    exact getNext_bytes i.immediate 1
  | immediate =>
    have hsize : i.immediateSize = if opndSize i = 2 then 2 else 4 := by
      rw [Move.immediateSize, hop]
      exact if_congr (operand_eq_word i) rfl rfl
    rw [immediateOf, getImmediate, getImmv32]
    by_cases h2 : opndSize i = 2
    · rw [if_pos h2] at hsize ⊢
      rw [hsize, getNext_bytes]
    · rw [if_neg h2] at hsize ⊢
      rw [if_pos ((opndSize_cases i).resolve_left h2), hsize, getNext_bytes]

theorem exists_head (bs : List (BitVec 8)) : ∃ b ∉ legacyPrefixes, ∃ bs',
    (i.rex.map ((0x4 : BitVec 4) ++ ·)).toList ++ (i.op.opcode ++ bs) = b :: bs' := by
  cases i.rex with
  | none =>
    obtain ⟨b, bs', hop, -, hb⟩ := opcode_eq_cons i.op
    exact ⟨b, hb, bs' ++ bs, by rw [hop]; rfl⟩
  | some r =>
    have hrex : ∀ r : BitVec 4, (0x4 : BitVec 4) ++ r ∉ legacyPrefixes := by decide
    exact ⟨_, hrex r, _, rfl⟩

theorem movePrefixes_subset : Move.movePrefixes ⊆ legacyPrefixes := by
  decide

theorem inatImmediate_legacy : ∀ b ∈ legacyPrefixes,
    b &&& 0xF0 ≠ 0x40 ∧ b ≠ 0x0F ∧ inatImmediate [b] = none := by
  decide

end Stages

theorem encode_append (rest : List (BitVec 8)) : i.encode ++ rest =
    i.prefixes ++ ((i.rex.map ((0x4 : BitVec 4) ++ ·)).toList ++ (i.op.opcode ++ modrmByte i ::
      ((if i.HasIndex then [i.scale ++ i.index ++ i.base] else []) ++
        (bytes i.displacement i.displacementSize ++
          (bytes i.immediate i.immediateSize ++ rest))))) := by
  simp [Move.encode, modrmByte]

/-- The decoder reads what is encoded, once all prefixes have been scanned. -/
theorem insnDecode_eq (hi : i.Encodable) (h : insnDecode (i.encode ++ rest) = some insn) :
    ∃ p, Scanned p i.prefixes ∧ insn = insnOf i p := by
  have hlength : (i.encode ++ rest).length - rest.length = i.encode.length := by simp
  obtain ⟨⟨p, bs⟩, hscan, h⟩ := Option.bind_eq_some_iff.mp h
  rw [encode_append] at hscan
  obtain ⟨b, hb, bs', hhead⟩ := exists_head i (modrmByte i ::
    ((if i.HasIndex then [i.scale ++ i.index ++ i.base] else []) ++
      (bytes i.displacement i.displacementSize ++ (bytes i.immediate i.immediateSize ++ rest))))
  rw [hhead] at hscan
  have hsubset := List.Subset.trans hi.subset movePrefixes_subset
  rcases scanPrefixes_cases scanned_init hsubset hb hscan with
    ⟨hp, rfl⟩ | ⟨c, hc, cs, rfl⟩
  · rw [List.nil_append] at hp
    refine ⟨p, hp, ?_⟩
    have hopnd : (if i.rexBit Move.rexW then 8 else p.opndBytes) = opndSize i := by
      rw [hp.opnd, opndSize]
    simp only [← hhead, getRex_encode, hopnd, nextByte, insnGetOpcode_encode, inatImmediate_opcode,
      getSib_encode i hi.memory, getDisplacement_encode i hi.memory, getImmediate_encode, hlength,
      Option.bind_eq_bind, Option.bind_some, Option.some_inj] at h
    exact h.symm
  · obtain ⟨hrex, hescape, hnone⟩ := inatImmediate_legacy c hc
    simp only [getRex, if_neg hrex, insnGetOpcode, nextByte, if_neg hescape, hnone,
      Option.bind_eq_bind, Option.bind_some, Option.bind_none, reduceCtorEq] at h

end Fields

end Pciem.Trace.InsnDecode
