import Mathlib.Logic.Function.Basic
import Pciem.Library.ByteMemory
import Pciem.Library.TransitionSystem

namespace Library.Emulation

open ByteMemory Function TransitionSystem

/-- Instructions that load or store. There is something in `stored` for a store, and `retire` gets
the bytes that were loaded or stored. -/
structure Isa (R I : Type*) where
  address : I → R → ℕ
  width : I → ℕ
  stored : I → R → Option (List (BitVec 8))
  retire : I → R → List (BitVec 8) → R

/-- `place` is what is behind a number of bytes at an address, and `Trap` tells whether an access to
it traps. `keep` tells whether stores that trap reach the memory, and `note` is what is noted of an
access. -/
structure Platform (E R I ε : Type*) extends Isa R I where
  place : E → ℕ → ℕ → Option ℕ
  Trap : E → ℕ → Prop
  keep : Bool
  note : I → ℕ → List (BitVec 8) → Option ε
  Change : E → E → Prop

variable {E R I ε ι : Type*}

/-- The `n` bytes from `p` on. -/
def peek (mem : Memory) (p n : ℕ) : List (BitVec 8) := (List.range n).map fun k ↦ mem (p + k)

namespace Isa

variable (isa : Isa R I)

def moved (i : I) (r : R) (mem : Memory) (p : ℕ) : List (BitVec 8) :=
  (isa.stored i r).getD (peek mem p (isa.width i))

def write (keep : Bool) (i : I) (r : R) (mem : Memory) (p : ℕ) : Memory :=
  match isa.stored i r with
  | some bs => if keep then store mem p bs else mem
  | none => mem

end Isa

/-- What a processor adds to a log. -/
def entry (c : ι) (e : Option ε) : List (ι × ε) := e.toList.map (Prod.mk c)

/-- Processors that carry out every instruction at once. -/
structure Direct (E R ε ι : Type*) where
  env : E
  mem : Memory
  regs : ι → R
  log : List (ι × ε)

/-- How far the emulation of an instruction has come. -/
inductive Point (I : Type*)
  | idle
  | trapped (i : I) (p : ℕ)
  | moved (i : I) (p : ℕ) (bs : List (BitVec 8))
  | noted (i : I) (p : ℕ) (bs : List (BitVec 8))

structure Cpu (R I : Type*) where
  regs : R
  point : Point I

/-- Processors that emulate the instructions that trap. `log` has the accesses in the order in
which they have been made, and `queue` what has been noted of them. -/
structure Emulated (E R I ε ι : Type*) where
  env : E
  mem : Memory
  cpus : ι → Cpu R I
  log : List (ι × ε)
  queue : List (ι × ε)

variable [DecidableEq ι] (P : Platform E R I ε)

inductive Direct.Step : Direct E R ε ι → Direct E R ε ι → Prop
  | compute {s : Direct E R ε ι} (c : ι) (r : R) :
      Direct.Step s { s with regs := update s.regs c r }
  | change {s : Direct E R ε ι} {env : E} : P.Change s.env env → Direct.Step s { s with env }
  | plain {s : Direct E R ε ι} {c : ι} {i : I} {p : ℕ} :
      P.place s.env (P.address i (s.regs c)) (P.width i) = some p →
      ¬ P.Trap s.env (P.address i (s.regs c)) →
      Direct.Step s { s with
        mem := P.write true i (s.regs c) s.mem p
        regs := update s.regs c (P.retire i (s.regs c) (P.moved i (s.regs c) s.mem p)) }
  | noted {s : Direct E R ε ι} {c : ι} {i : I} {p : ℕ} :
      P.place s.env (P.address i (s.regs c)) (P.width i) = some p →
      P.Trap s.env (P.address i (s.regs c)) →
      Direct.Step s { s with
        mem := P.write P.keep i (s.regs c) s.mem p
        regs := update s.regs c (P.retire i (s.regs c) (P.moved i (s.regs c) s.mem p))
        log := s.log ++ entry c (P.note i p (P.moved i (s.regs c) s.mem p)) }

/-- The place that the emulation has found stays behind the address. -/
def Stays (env : E) (cpu : Cpu R I) : Prop :=
  match cpu.point with
  | .trapped i p =>
    P.place env (P.address i cpu.regs) (P.width i) = some p ∧ P.Trap env (P.address i cpu.regs)
  | _ => True

inductive Emulated.Step : Emulated E R I ε ι → Emulated E R I ε ι → Prop
  | compute {s : Emulated E R I ε ι} {c : ι} {r : R} (r' : R) : s.cpus c = ⟨r, .idle⟩ →
      Emulated.Step s { s with cpus := update s.cpus c ⟨r', .idle⟩ }
  | change {s : Emulated E R I ε ι} {env : E} : P.Change s.env env →
      (∀ c, Stays P env (s.cpus c)) → Emulated.Step s { s with env }
  | plain {s : Emulated E R I ε ι} {c : ι} {r : R} {i : I} {p : ℕ} : s.cpus c = ⟨r, .idle⟩ →
      P.place s.env (P.address i r) (P.width i) = some p → ¬ P.Trap s.env (P.address i r) →
      Emulated.Step s { s with
        mem := P.write true i r s.mem p
        cpus := update s.cpus c ⟨P.retire i r (P.moved i r s.mem p), .idle⟩ }
  | trap {s : Emulated E R I ε ι} {c : ι} {r : R} {i : I} {p : ℕ} : s.cpus c = ⟨r, .idle⟩ →
      P.place s.env (P.address i r) (P.width i) = some p → P.Trap s.env (P.address i r) →
      Emulated.Step s { s with cpus := update s.cpus c ⟨r, .trapped i p⟩ }
  | access {s : Emulated E R I ε ι} {c : ι} {r : R} {i : I} {p : ℕ} :
      s.cpus c = ⟨r, .trapped i p⟩ →
      Emulated.Step s { s with
        mem := P.write P.keep i r s.mem p
        cpus := update s.cpus c ⟨r, .moved i p (P.moved i r s.mem p)⟩
        log := s.log ++ entry c (P.note i p (P.moved i r s.mem p)) }
  | report {s : Emulated E R I ε ι} {c : ι} {r : R} {i : I} {p : ℕ} {bs : List (BitVec 8)} :
      s.cpus c = ⟨r, .moved i p bs⟩ →
      Emulated.Step s { s with
        cpus := update s.cpus c ⟨r, .noted i p bs⟩
        queue := s.queue ++ entry c (P.note i p bs) }
  | resume {s : Emulated E R I ε ι} {c : ι} {r : R} {i : I} {p : ℕ} {bs : List (BitVec 8)} :
      s.cpus c = ⟨r, .noted i p bs⟩ →
      Emulated.Step s { s with cpus := update s.cpus c ⟨P.retire i r bs, .idle⟩ }

/-- The processors start with no access made. -/
def direct : System (Direct E R ε ι) where
  init s := s.log = []
  next := Direct.Step P

/-- The registers with the access that has been made. -/
def settled (cpu : Cpu R I) : R :=
  match cpu.point with
  | .idle | .trapped _ _ => cpu.regs
  | .moved i _ bs | .noted i _ bs => P.retire i cpu.regs bs

/-- What is yet to be noted. -/
def pending : Point I → List ε
  | .moved i p bs => (P.note i p bs).toList
  | _ => []

/-- The entries of a log that are a processor's. -/
def entriesOf (c : ι) (log : List (ι × ε)) : List ε := (log.filter fun e ↦ e.1 = c).map Prod.snd

/-- What has been made of accesses is in the queue or about to be. -/
def Queued (s : Emulated E R I ε ι) (c : ι) (cpu : Cpu R I) : Prop :=
  entriesOf c s.log = entriesOf c s.queue ++ pending P cpu.point

structure Emulated.Sound (s : Emulated E R I ε ι) : Prop where
  stays : ∀ c, Stays P s.env (s.cpus c)
  queued : ∀ c, Queued P s c (s.cpus c)

section Entries

variable {c d : ι} {log : List (ι × ε)} {e : Option ε}

theorem entriesOf_append_self :
    entriesOf c (log ++ entry c e) = entriesOf c log ++ e.toList := by
  cases e with
  | none => simp [entriesOf, entry]
  | some e => simp [entriesOf, entry]

theorem entriesOf_append_of_ne (h : d ≠ c) :
    entriesOf d (log ++ entry c e) = entriesOf d log := by
  cases e with
  | none => simp [entry]
  | some e => simp [entriesOf, entry, Ne.symm h]

end Entries

variable {P} {s s' : Emulated E R I ε ι} {c d : ι}

theorem Emulated.Sound.update (h : s.Sound P) {mem : Memory} {cpu : Cpu R I}
    {log queue : List (ι × ε)} (hstays : Stays P s.env cpu)
    (hqueued : Queued P ⟨s.env, mem, s.cpus, log, queue⟩ c cpu)
    (hothers : ∀ d, d ≠ c → entriesOf d log = entriesOf d s.log ∧
      entriesOf d queue = entriesOf d s.queue) :
    Emulated.Sound P ⟨s.env, mem, Function.update s.cpus c cpu, log, queue⟩ := by
  refine ⟨(forall_update_iff s.cpus fun _ ↦ Stays P s.env).mpr ⟨hstays, fun d _ ↦ h.stays d⟩, ?_⟩
  refine (forall_update_iff s.cpus (Queued P _)).mpr ⟨hqueued, fun d hd ↦ ?_⟩
  obtain ⟨hlog, hqueue⟩ := hothers d hd
  have hd := h.queued d
  unfold Queued at hd ⊢
  rw [hlog, hqueue, hd]

theorem Emulated.Sound.step (h : s.Sound P) (hs : Emulated.Step P s s') : s'.Sound P := by
  cases hs with
  | @compute c r r' hc =>
    have hqueued := h.queued c
    rw [hc] at hqueued
    exact h.update trivial hqueued fun _ _ ↦ ⟨rfl, rfl⟩
  | change hchange hstays => exact ⟨hstays, h.queued⟩
  | @plain c r i p hc hplace htrap =>
    have hqueued := h.queued c
    rw [hc] at hqueued
    exact h.update trivial hqueued fun _ _ ↦ ⟨rfl, rfl⟩
  | @trap c r i p hc hplace htrap =>
    have hqueued := h.queued c
    rw [hc] at hqueued
    exact h.update ⟨hplace, htrap⟩ hqueued fun _ _ ↦ ⟨rfl, rfl⟩
  | @access c r i p hc =>
    have hqueued := h.queued c
    rw [hc] at hqueued
    refine h.update trivial ?_ fun d hd ↦ ⟨entriesOf_append_of_ne hd, rfl⟩
    unfold Queued pending at hqueued ⊢
    rw [entriesOf_append_self, hqueued, List.append_nil]
  | @report c r i p bs hc =>
    have hqueued := h.queued c
    rw [hc] at hqueued
    refine h.update trivial ?_ fun d hd ↦ ⟨rfl, entriesOf_append_of_ne hd⟩
    unfold Queued pending at hqueued ⊢
    rw [entriesOf_append_self, List.append_nil]
    exact hqueued
  | @resume c r i p bs hc =>
    have hqueued := h.queued c
    rw [hc] at hqueued
    exact h.update trivial hqueued fun _ _ ↦ ⟨rfl, rfl⟩

end Library.Emulation
