import Pciem.Kernel.Errno
import Pciem.Library.X64
import Pciem.Trace.Context

namespace Pciem.Trace.X86

open Kernel Library.ByteMemory Library.BitField Library.X64 Context

inductive InsnMmioType
  | decodeFailed
  | write
  | writeImm
  | read
  | readZeroExtend
  | readSignExtend
  | movs
deriving DecidableEq

/-- What the decoder makes of an instruction: `data` is the register that `insn_get_modrm_reg_ptr`
points to, if it does not fail, and `addr` is what `insn_get_addr_ref` returns. -/
structure DecodedInsn where
  mmio : InsnMmioType
  len : ℕ
  opndBytes : ℕ
  immediate1 : BitVec 32
  data : Option ℕ
  addr : BitVec 64
  length : ℕ

/-- `gpr` has the registers in the order of `pt_regoff`. -/
structure PtRegs where
  gpr : ℕ → BitVec 64
  ip : BitVec 64

def PtRegs.set (regs : PtRegs) (r : ℕ) (data : BitVec 64) : PtRegs :=
  { regs with gpr := Function.update regs.gpr r data }

/-- A register with bytes copied to its beginning. -/
def patch (data : BitVec 64) (src : List (BitVec 8)) : BitVec 64 :=
  compose ((src ++ (bytes data 8).drop src.length).map (BitVec.setWidth 64))

/-- `memset` -/
def fill (data : BitVec 64) (value : BitVec 8) (n : ℕ) : BitVec 64 :=
  patch data (List.replicate n value)

def signByte (len : ℕ) (dst : List (BitVec 8)) : BitVec 8 :=
  if len = 1 then
    let val : BitVec 8 := compose (dst.map (BitVec.setWidth 8))
    if val &&& 0x80 ≠ 0 then 0xff else 0x00
  else
    let val : BitVec 16 := compose (dst.map (BitVec.setWidth 16))
    if val &&& 0x8000 ≠ 0 then 0xff else 0x00

/-- The cases of the switch that need a register. -/
def emulateData (ctx : SmptraceCtx) (map : SmptraceMap) (d : DecodedInsn) (r : ℕ) (regs : PtRegs)
    (s : Traced) : Option (Except Errno Unit × PtRegs × Traced) :=
  let data := regs.gpr r
  match d.mmio with
  | .write => do
    let s ← smptraceEmulateWrite ctx map d.addr d.len (bytes data d.len) s
    some (.ok (), regs, s)
  | .read => do
    let data := if d.len = 4 then 0 else data
    let dst ← smptraceEmulateRead ctx map d.addr d.len s
    some (.ok (), regs.set r (patch data dst.1), dst.2)
  | .readZeroExtend => do
    let data := fill data 0 d.opndBytes
    let dst ← smptraceEmulateRead ctx map d.addr d.len s
    some (.ok (), regs.set r (patch data dst.1), dst.2)
  | .readSignExtend => do
    let val ← smptraceEmulateRead ctx map d.addr d.len s
    let data := fill data (signByte d.len val.1) d.opndBytes
    let dst ← smptraceEmulateRead ctx map d.addr d.len val.2
    some (.ok (), regs.set r (patch data dst.1), dst.2)
  | _ => some (.error .enotsupp, regs, s)

def emulateMmio (ctx : SmptraceCtx) (map : SmptraceMap) (d : DecodedInsn) (regs : PtRegs)
    (s : Traced) : Option (Except Errno Unit × PtRegs × Traced) :=
  if d.mmio = .writeImm then
    if d.len > 4 then
      none
    else do
      let s ← smptraceEmulateWrite ctx map d.addr d.len (bytes d.immediate1 d.len) s
      some (.ok (), regs, s)
  else if d.mmio = .movs then
    some (.error .enotsupp, regs, s)
  else
    match d.data with
    | none => some (.error .einval, regs, s)
    | some r => emulateData ctx map d r regs s

/-- There is no result where the kernel runs into `BUG`. -/
def emulatePfInstruction (userMode : Bool) (decode : Except Errno DecodedInsn)
    (ctx : SmptraceCtx) (map : SmptraceMap) (regs : PtRegs) (s : Traced) :
    Option (Except Errno Unit × PtRegs × Traced) :=
  if userMode then
    some (.error .eacces, regs, s)
  else
    match decode with
    | .error e => some (.error e, regs, s)
    | .ok d =>
      if d.mmio = .decodeFailed then
        some (.error .einval, regs, s)
      else
        match emulateMmio ctx map d regs s with
        | none => none
        | some (.error e, regs, s) => some (.error e, regs, s)
        | some (.ok (), regs, s) =>
          some (.ok (), { regs with ip := regs.ip + BitVec.ofNat 64 d.length }, s)

section Registers

theorem byte_patch (data : BitVec 64) {src : List (BitVec 8)} (hsrc : src.length ≤ 8) {k : ℕ}
    (hk : k < 8) : byte (patch data src) k = src.getD k (byte data k) := by
  have hlength : (src ++ (bytes data 8).drop src.length).length = 8 := by
    simp
    omega
  rw [patch, byte_compose _ (by omega) (by omega)]
  by_cases hlt : k < src.length
  · simp [List.getElem_append_left hlt, hlt]
  · rw [List.getElem_append_right (by omega), List.getD_eq_default _ _ (by omega)]
    simp [bytes, show src.length + (k - src.length) = k by omega]

theorem byte_fill (data : BitVec 64) (value : BitVec 8) {n : ℕ} (hn : n ≤ 8) {k : ℕ} (hk : k < 8) :
    byte (fill data value n) k = if k < n then value else byte data k := by
  rw [fill, byte_patch _ (by simpa using hn) hk]
  split_ifs with h
  · simp [h]
  · exact List.getD_eq_default _ _ (by simpa using h)

end Registers

section Loads

variable {ctx : SmptraceCtx} {map : SmptraceMap} {d : DecodedInsn} {r : ℕ} {i : Load}
  {regs : PtRegs} {s : Traced}

/-- What the decoder is to say of a load. -/
def Reports (d : DecodedInsn) : Load → Prop
  | .mov width => d.mmio = .read ∧ d.len = width.size
  | .movzx memory register =>
    d.mmio = .readZeroExtend ∧ d.len = memory.size ∧ d.opndBytes = register.size
  | .movsx memory register =>
    d.mmio = .readSignExtend ∧ d.len = memory.size ∧ d.opndBytes = register.size

/-- The upper half of the register is clear, where a load to the lower half leaves it alone. -/
def Clear (old : BitVec 64) : Load → Prop
  | .mov _ => True
  | .movzx _ register | .movsx _ register => register = .dword → old.extractLsb' 32 32 = 0

theorem size_mem_sizes (width : Width) : width.size ∈ sizes := by
  cases width with
  | byte | word | dword | qword => decide

theorem byte_load (mem : Memory) (p : ℕ) {n k : ℕ} (hk : k < n) :
    byte (load mem p n : BitVec (8 * n)) k = mem (p + k) := by
  rw [load_eq_compose, byte_compose _ (by simpa using hk) (by simp)]
  simp

theorem signByte_one (s : Traced) (off : BitVec 64) : signByte 1 (s.peek off 1) =
    if (load s.shadow off.toNat 1 : BitVec (7 + 1)).msb then 0xff else 0 := by
  have hval : compose ((s.peek off 1).map (BitVec.setWidth 8)) =
      (load s.shadow off.toNat 1 : BitVec (7 + 1)) := (load_eq_compose ..).symm
  rw [signByte, if_pos rfl]
  simp only [hval]
  exact if_congr (test_msb _ rfl) rfl rfl

theorem signByte_two (s : Traced) (off : BitVec 64) : signByte 2 (s.peek off 2) =
    if (load s.shadow off.toNat 2 : BitVec (15 + 1)).msb then 0xff else 0 := by
  have hval : compose ((s.peek off 2).map (BitVec.setWidth 16)) =
      (load s.shadow off.toNat 2 : BitVec (15 + 1)) := (load_eq_compose ..).symm
  rw [signByte, if_neg (by decide)]
  simp only [hval]
  exact if_congr (test_msb _ rfl) rfl rfl

theorem signByte_eq (s : Traced) (off : BitVec 64) {memory : Width}
    (h : memory = .byte ∨ memory = .word) : signByte memory.size (s.peek off memory.size) =
      if (load s.shadow off.toNat memory.size : BitVec (8 * memory.size)).msb then 0xff else 0 := by
  rcases h with rfl | rfl
  · exact signByte_one s off
  · exact signByte_two s off

/-- The byte that the rest of the operand gets. -/
def fillByte (i : Load) (value : BitVec (8 * i.memory.size)) : BitVec 8 :=
  match i with
  | .mov _ | .movzx _ _ => 0
  | .movsx _ _ => if value.msb then 0xff else 0

theorem byte_extend (i : Load) (value : BitVec (8 * i.memory.size)) {k : ℕ} (hk : k < 8) :
    byte (i.extend value) k =
      if k < i.memory.size then byte value k else fillByte i value := by
  have hle := le_of_mem_sizes (size_mem_sizes i.memory)
  split_ifs with h
  · cases i with
    | mov | movzx => exact byte_setWidth value (by omega) (by omega)
    | movsx => exact byte_signExtend value (by omega) (by omega)
  · cases i with
    | mov | movzx => exact byte_setWidth_of_ge value (by omega)
    | movsx => exact byte_signExtend_of_ge value (by omega) hk

/-- The bytes that a load leaves in its register, after one byte has been put everywhere in the
operand. -/
theorem byte_loaded (old : BitVec 64) (hle : i.memory.size ≤ i.register.size) (s : Traced)
    (off : BitVec 64) {k : ℕ} (hk : k < 8) :
    byte (patch (fill old (fillByte i (load s.shadow off.toNat i.memory.size)) i.register.size)
        (s.peek off i.memory.size)) k =
      if k < i.register.size then byte (i.extend (load s.shadow off.toNat i.memory.size)) k
        else byte old k := by
  have hmemory := le_of_mem_sizes (size_mem_sizes i.memory)
  have hregister := le_of_mem_sizes (size_mem_sizes i.register)
  rw [byte_patch _ (by simpa [length_peek] using hmemory) hk, byte_fill _ _ hregister hk,
    byte_extend _ _ hk]
  by_cases hlt : k < i.memory.size
  · have hget : (s.peek off i.memory.size).getD k
        (if k < i.register.size then fillByte i (load s.shadow off.toNat i.memory.size)
          else byte old k) = s.shadow (off.toNat + k) := by
      simp [Traced.peek, hlt]
    rw [hget, if_pos (by omega), if_pos hlt, byte_load _ _ hlt]
  · rw [List.getD_eq_default _ _ (by simpa [length_peek] using hlt), if_neg hlt]

/-- What the handler makes of the register. -/
def loaded (i : Load) (old : BitVec 64) (s : Traced) (off : BitVec 64) : BitVec 64 :=
  patch (fill (if i = .mov .dword then 0 else old)
    (fillByte i (load s.shadow off.toNat i.memory.size)) i.register.size) (s.peek off i.memory.size)

theorem patch_fill (old : BitVec 64) (value : BitVec 8) {src : List (BitVec 8)}
    (hsrc : src.length ≤ 8) : patch (fill old value src.length) src = patch old src := by
  apply eq_of_byte_eq
  intro k hk
  rw [byte_patch _ hsrc hk, byte_patch _ hsrc hk, byte_fill _ _ hsrc hk]
  by_cases hlt : k < src.length
  · simp [hlt]
  · rw [if_neg hlt]

theorem loaded_mov (width : Width) (old : BitVec 64) (s : Traced) (off : BitVec 64) :
    loaded (.mov width) old s off =
      patch (if width.size = 4 then 0 else old) (s.peek off width.size) := by
  have hle := le_of_mem_sizes (size_mem_sizes width)
  have hlength := length_peek s off width.size
  have hold : (if Load.mov width = .mov .dword then 0 else old) =
      if width.size = 4 then 0 else old := by
    cases width with
    | byte | word | dword | qword => rfl
  have hfill := patch_fill (if width.size = 4 then 0 else old) 0 (hlength.trans_le hle)
  rw [hlength] at hfill
  rw [← hfill, ← hold]
  rfl

theorem read_shadow (hin : Inside ctx map d.addr i.memory.size) (s : Traced) :
    ∃ s', smptraceEmulateRead ctx map d.addr i.memory.size s =
      some (s.peek (barOffset ctx map d.addr) i.memory.size, s') ∧ s'.shadow = s.shadow := by
  have hsize := size_mem_sizes i.memory
  obtain ⟨stack, hread⟩ := emulateRead_eq hsize (hin.not_outOfBar hsize) s
  exact ⟨_, hread, shadow_notified ..⟩

theorem emulateData_load (hi : i.Encodable) (hd : Reports d i)
    (hin : Inside ctx map d.addr i.memory.size) (regs : PtRegs) (s : Traced) :
    ∃ s', emulateData ctx map d r regs s = some (.ok (),
      regs.set r (loaded i (regs.gpr r) s (barOffset ctx map d.addr)), s') := by
  obtain ⟨s', hread, hshadow⟩ := read_shadow hin s
  cases i with
  | mov width =>
    obtain ⟨hmmio, hlen⟩ := hd
    refine ⟨s', ?_⟩
    have hread : smptraceEmulateRead ctx map d.addr width.size s = _ := hread
    simp only [emulateData, hmmio, hlen, hread, Option.bind_eq_bind, Option.bind_some,
      loaded_mov]
    rfl
  | movzx memory register =>
    obtain ⟨hmmio, hlen, hopnd⟩ := hd
    refine ⟨s', ?_⟩
    have hread : smptraceEmulateRead ctx map d.addr memory.size s = _ := hread
    simp only [emulateData, hmmio, hlen, hopnd, hread, Option.bind_eq_bind, Option.bind_some]
    rfl
  | movsx memory register =>
    obtain ⟨hmmio, hlen, hopnd⟩ := hd
    obtain ⟨s'', hread', -⟩ := read_shadow hin s'
    refine ⟨s'', ?_⟩
    have hread : smptraceEmulateRead ctx map d.addr memory.size s = _ := hread
    have hread' : smptraceEmulateRead ctx map d.addr memory.size s' = _ := hread'
    have hpeek : s'.peek (barOffset ctx map d.addr) memory.size =
        s.peek (barOffset ctx map d.addr) memory.size := by
      rw [Traced.peek, Traced.peek, hshadow]
    have hsign := signByte_eq s (barOffset ctx map d.addr) hi.1
    simp only [emulateData, hmmio, hlen, hopnd, hread, hread', Option.bind_eq_bind,
      Option.bind_some, Load.memory, hpeek, hsign]
    rfl

theorem emulate_load (hi : i.Encodable) (hd : Reports d i) (hdata : d.data = some r)
    (hin : Inside ctx map d.addr i.memory.size) (regs : PtRegs) (s : Traced) :
    ∃ s', emulatePfInstruction false (.ok d) ctx map regs s = some (.ok (),
        { regs.set r (loaded i (regs.gpr r) s (barOffset ctx map d.addr)) with
          ip := regs.ip + BitVec.ofNat 64 d.length }, s') := by
  obtain ⟨s', hemulate⟩ := emulateData_load (r := r) hi hd hin regs s
  have hmmio : d.mmio ≠ .decodeFailed ∧ d.mmio ≠ .writeImm ∧ d.mmio ≠ .movs := by
    cases i with
    | mov => simp [hd.1]
    | movzx | movsx => simp [hd.1]
  refine ⟨s', ?_⟩
  simp only [emulatePfInstruction, emulateMmio, hmmio, hdata, hemulate, Bool.false_eq_true,
    if_false]
  rfl

theorem size_le (hi : i.Encodable) : i.memory.size ≤ i.register.size := by
  cases i with
  | mov => exact le_refl _
  | movzx memory register | movsx memory register =>
    obtain ⟨rfl | rfl, hne⟩ := hi
    · cases register with
      | byte | word | dword | qword => decide
    · cases register with
      | byte => cases hne rfl
      | word | dword | qword => decide

/-- The upper half of the register is what makes the difference. -/
theorem loaded_eq_iff (hi : i.Encodable) (old : BitVec 64) (s : Traced) (off : BitVec 64) :
    loaded i old s off = writeRegister old (i.extend (load s.shadow off.toNat i.memory.size))
      i.register ↔ Clear old i := by
  have hbyte {k : ℕ} (hk : k < 8) := byte_loaded (i := i)
    (if i = .mov .dword then 0 else old) (size_le hi) s off hk
  have hspec {k : ℕ} (hk : k < 8) := byte_writeRegister old
    (i.extend (load s.shadow off.toNat i.memory.size)) i.register hk
  constructor
  · intro h
    cases i with
    | mov => trivial
    | movzx memory register | movsx memory register =>
      rintro rfl
      rw [upper_eq_zero_iff]
      intro k hk hle
      have hsame := (hbyte hk).symm.trans ((congrArg (byte · k) h).trans (hspec hk))
      have hge : ¬ k < Width.dword.size := by
        rw [Width.size]
        omega
      simpa [Load.register, hge] using hsame
  · intro h
    apply eq_of_byte_eq
    intro k hk
    rw [hspec hk, loaded, hbyte hk]
    split_ifs with hlt hload hregister hregister
    · rfl
    · simp [byte]
    · exact absurd (congrArg Load.register hload) hregister
    · cases i with
      | mov width => exact absurd (congrArg Load.mov hregister) hload
      | movzx memory register | movsx memory register =>
        refine (upper_eq_zero_iff old).mp (h hregister) k hk ?_
        rw [hregister, Width.size] at hlt
        omega
    · rfl

/-- The register has what it should have, unless its upper half is to be cleared and is not. -/
theorem load_exact_iff (hi : i.Encodable) (hd : Reports d i) (hdata : d.data = some r)
    (hin : Inside ctx map d.addr i.memory.size) (regs : PtRegs) (s : Traced) :
    (∃ regs' s', emulatePfInstruction false (.ok d) ctx map regs s = some (.ok (), regs', s') ∧
      regs'.gpr r = i.execute (window ctx map s.shadow) d.addr.toNat (regs.gpr r)) ↔
      Clear (regs.gpr r) i := by
  obtain ⟨s', hemulate⟩ := emulate_load hi hd hdata hin regs s
  rw [Load.execute, load_window hin, ← loaded_eq_iff hi (regs.gpr r) s]
  constructor
  · rintro ⟨regs', s'', hsome, hgpr⟩
    rw [hemulate] at hsome
    cases hsome
    rw [← hgpr]
    exact (Function.update_self r _ regs.gpr).symm
  · intro h
    exact ⟨_, s', hemulate, (Function.update_self r _ regs.gpr).trans h⟩

/-- `movzx eax, byte ptr [...]` -/
def byteLoad : DecodedInsn := ⟨.readZeroExtend, 1, 4, 0, some 0, 0x5004, 4⟩

def pageRegs (rax : BitVec 64) : PtRegs := ⟨fun r ↦ if r = 0 then rax else 0, 0x1000⟩

theorem load_exact_byteLoad :
    (∃ regs' s', emulatePfInstruction false (.ok byteLoad) page pageMap (pageRegs 7) (filled 0x80) =
        some (.ok (), regs', s') ∧ regs'.gpr 0 = (Load.movzx .byte .dword).execute
          (window page pageMap (filled 0x80).shadow) byteLoad.addr.toNat ((pageRegs 7).gpr 0)) ↔
      Clear ((pageRegs 7).gpr 0) (.movzx .byte .dword) := by
  have hi : (Load.movzx .byte .dword).Encodable := ⟨.inl rfl, by decide⟩
  have hd : Reports byteLoad (.movzx .byte .dword) := ⟨rfl, rfl, rfl⟩
  have hin : Inside page pageMap byteLoad.addr Width.byte.size :=
    ⟨by decide, by decide, by decide⟩
  exact load_exact_iff hi hd rfl hin (pageRegs 7) (filled 0x80)

/-- What was in the upper half is still there. -/
theorem upper_half_stays : ¬ ∃ regs' s', emulatePfInstruction false (.ok byteLoad) page pageMap
    (pageRegs (-1)) (filled 0x80) = some (.ok (), regs', s') ∧
      regs'.gpr 0 = (Load.movzx .byte .dword).execute (window page pageMap (filled 0x80).shadow)
        byteLoad.addr.toNat ((pageRegs (-1)).gpr 0) := by
  rintro ⟨regs', s', hsome, hgpr⟩
  cases hsome
  revert hgpr
  decide

end Loads

end Pciem.Trace.X86
