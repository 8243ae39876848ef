import Mathlib.Data.Nat.Notation

namespace Pciem.Kernel

def pciemMaxFunctions : ℕ := 8

def pciCfgSpaceSize : ℕ := 256
def pciCfgSpaceExpSize : ℕ := 4096

def pciVendorId : ℕ := 0x00
def pciDeviceId : ℕ := 0x02
def pciCommand : ℕ := 0x04
def pciCommandMemory : BitVec 16 := 0x2
def pciStatus : ℕ := 0x06
def pciStatusCapList : BitVec 16 := 0x10
def pciRevisionId : ℕ := 0x08
def pciClassProg : ℕ := 0x09
def pciClassDevice : ℕ := 0x0a
def pciHeaderType : ℕ := 0x0e
def pciHeaderTypeMfd : BitVec 8 := 0x80
def pciBaseAddress0 : ℕ := 0x10
def pciSubsystemVendorId : ℕ := 0x2c
def pciSubsystemId : ℕ := 0x2e
def pciRomAddress : ℕ := 0x30
def pciCapabilityList : ℕ := 0x34
def pciInterruptPin : ℕ := 0x3d

def pciStdNumBars : ℕ := 6
def pciBaseAddressSpaceIo : BitVec 32 := 0x01
def pciBaseAddressMemType64 : BitVec 32 := 0x04
def pciBaseAddressMemMask : BitVec 32 := ~~~0x0f
def pciBaseAddressIoMask : BitVec 32 := ~~~0x03

def pciCapIdPm : BitVec 8 := 0x01
def pciCapIdMsi : BitVec 8 := 0x05
def pciCapIdVndr : BitVec 8 := 0x09
def pciCapIdExp : BitVec 8 := 0x10
def pciCapIdMsix : BitVec 8 := 0x11
def pciExtCapIdPasid : BitVec 32 := 0x1b

def pciExpTypeEndpoint : BitVec 8 := 0x0

def pciMsiFlags : ℕ := 2
def pciMsiFlags64bit : BitVec 16 := 0x0080
def pciMsiFlagsMaskbit : BitVec 16 := 0x0100
def pciMsiAddressLo : ℕ := 4
def pciMsiAddressHi : ℕ := 8
def pciMsiData32 : ℕ := 8
def pciMsiMask32 : ℕ := 12
def pciMsiData64 : ℕ := 12
def pciMsiMask64 : ℕ := 16

def pciMsixFlags : ℕ := 2

def pciPmCapD1 : BitVec 16 := 0x0200
def pciPmCapD2 : BitVec 16 := 0x0400
def pciPmCapPmeD0 : BitVec 16 := 0x0800
def pciPmCapPmeD3hot : BitVec 16 := 0x4000
def pciPmCapPmeD3cold : BitVec 16 := 0x8000
def pciPmCtrl : ℕ := 4
def pciPmCtrlStateMask : BitVec 32 := 0x0003
def pciPmCtrlPmeEnable : BitVec 32 := 0x0100
def pciPmCtrlPmeStatus : BitVec 32 := 0x8000

def pciPasidCtrl : ℕ := 6
def pciPasidCtrlEnable : BitVec 32 := 0x01
def pciPasidCtrlExec : BitVec 32 := 0x02
def pciPasidCtrlPriv : BitVec 32 := 0x04

/-- The `PCIBIOS_*` results of a config access. -/
inductive Pcibios
  | successful
  | funcNotSupported
  | deviceNotFound
  deriving DecidableEq, Repr

end Pciem.Kernel
