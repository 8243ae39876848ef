import Mathlib.Data.List.GetD

namespace Library.ByteMemory

abbrev Memory := ℕ → BitVec 8

/-- Byte `k` of a word, the least significant first. -/
def byte {w : ℕ} (value : BitVec w) (k : ℕ) : BitVec 8 := value.extractLsb' (8 * k) 8

/-- The `n` low bytes of a word, the least significant first. -/
def bytes {w : ℕ} (value : BitVec w) (n : ℕ) : List (BitVec 8) := (List.range n).map (byte value)

/-- The word whose bytes are the given ones, the least significant first. -/
def compose {w : ℕ} : List (BitVec w) → BitVec w
  | [] => 0
  | b :: bs => b ||| compose bs <<< 8

def store (mem : Memory) (p : ℕ) (bs : List (BitVec 8)) : Memory :=
  fun q ↦ if p ≤ q then bs.getD (q - p) (mem q) else mem q

def load {w : ℕ} (mem : Memory) (p n : ℕ) : BitVec w :=
  compose ((List.range n).map fun k ↦ (mem (p + k)).setWidth w)

variable {w : ℕ} {mem mem' : Memory} {p q n : ℕ} {bs : List (BitVec 8)}

@[simp]
theorem length_bytes (value : BitVec w) (n : ℕ) : (bytes value n).length = n := by
  simp [bytes]

theorem store_inside {k : ℕ} (h : k < bs.length) : store mem p bs (p + k) = bs[k] := by
  simp [store, h]

theorem store_outside (h : q < p ∨ p + bs.length ≤ q) : store mem p bs q = mem q := by
  rw [store]
  split
  · exact List.getD_eq_default _ _ (by omega)
  · rfl

theorem byte_setWidth {v k : ℕ} (value : BitVec v) (hk : 8 * k + 8 ≤ v) (hw : v ≤ w) :
    byte (value.setWidth w) k = byte value k := by
  apply BitVec.eq_of_getLsbD_eq
  intro i hi
  simp only [byte, BitVec.getLsbD_extractLsb', BitVec.getLsbD_setWidth, hi, decide_true,
    Bool.true_and, decide_eq_true (show 8 * k + i < w by omega)]

theorem store_bytes {value : BitVec w} {k : ℕ} (h : k < n) :
    store mem p (bytes value n) (p + k) = byte value k := by
  rw [store_inside (by simpa using h)]
  simp [bytes]

@[simp]
theorem load_one : (load mem p 1 : BitVec w) = (mem p).setWidth w := by
  simp [load, compose]

theorem load_congr (h : ∀ k < n, mem (p + k) = mem' (p + k)) :
    load mem p n = (load mem' p n : BitVec w) := by
  rw [load, load]
  congr 1
  exact List.map_congr_left fun k hk ↦ by rw [h k (List.mem_range.mp hk)]

theorem load_store_bytes {value : BitVec w} {m : ℕ} (hp : q ≤ p) (hn : p + n ≤ q + m) :
    load (store mem q (bytes value m)) p n =
      compose ((List.range n).map fun k ↦ (byte value (p - q + k)).setWidth w) := by
  rw [load]
  congr 1
  refine List.map_congr_left fun k hk ↦ ?_
  have := List.mem_range.mp hk
  rw [show p + k = q + (p - q + k) by omega, store_bytes (by omega)]

theorem getLsbD_compose {bs : List (BitVec 8)} {i : ℕ} (hi : i < w) :
    (compose (bs.map (BitVec.setWidth w))).getLsbD i = (bs.getD (i / 8) 0).getLsbD (i % 8) := by
  induction bs generalizing i with
  | nil => simp [compose]
  | cons b bs ih =>
    rw [List.map_cons, compose, BitVec.getLsbD_or, BitVec.getLsbD_shiftLeft,
      BitVec.getLsbD_setWidth]
    rcases Nat.lt_or_ge i 8 with h8 | h8
    · simp [hi, h8, Nat.div_eq_of_lt h8, Nat.mod_eq_of_lt h8]
    · have hb : b.getLsbD i = false := BitVec.getLsbD_of_ge b i h8
      obtain ⟨j, rfl⟩ := Nat.exists_eq_add_of_le h8
      rw [Nat.add_sub_cancel_left, ih (by omega), hb, Nat.add_div_left j (by omega),
        Nat.add_mod_left]
      simp [hi]

theorem compose_bytes {v : ℕ} (value : BitVec v) (hv : v ≤ 8 * n) :
    compose ((bytes value n).map (BitVec.setWidth w)) = value.setWidth w := by
  apply BitVec.eq_of_getLsbD_eq
  intro i hi
  rw [getLsbD_compose hi, BitVec.getLsbD_setWidth]
  rcases Nat.lt_or_ge (i / 8) n with hn | hn
  · have hlt : i % 8 < 8 := Nat.mod_lt _ (by omega)
    have hsum : 8 * (i / 8) + i % 8 = i := Nat.div_add_mod i 8
    simp [bytes, byte, hn, hlt, hsum, hi]
  · rw [List.getD_eq_default _ _ (by simpa using hn), BitVec.getLsbD_of_ge value i (by omega)]
    simp

theorem byte_compose (bs : List (BitVec 8)) {k : ℕ} (hk : k < bs.length)
    (hw : 8 * bs.length ≤ w) : byte (compose (bs.map (BitVec.setWidth w))) k = bs[k] := by
  apply BitVec.eq_of_getLsbD_eq
  intro i hi
  have hdiv : (8 * k + i) / 8 = k := by omega
  have hmod : (8 * k + i) % 8 = i := by omega
  rw [byte, BitVec.getLsbD_extractLsb', getLsbD_compose (by omega), hdiv, hmod]
  simp [hi, hk]

theorem load_eq_compose (mem : Memory) (p n : ℕ) : (load mem p n : BitVec w) =
    compose (((List.range n).map fun k ↦ mem (p + k)).map (BitVec.setWidth w)) := by
  rw [load, List.map_map]
  rfl

theorem load_eq_iff {v : ℕ} (value : BitVec v) (hv : v = 8 * n) (hw : v ≤ w) :
    (load mem p n : BitVec w) = value.setWidth w ↔ ∀ k < n, mem (p + k) = byte value k := by
  rw [load_eq_compose, ← compose_bytes value (n := n) (by omega)]
  constructor
  · intro h k hk
    have hk' : k < ((List.range n).map fun k ↦ mem (p + k)).length := by simpa using hk
    have hl := byte_compose (w := w) _ hk' (by simp; omega)
    have hr := byte_compose (w := w) (bytes value n) (k := k) (by simpa using hk)
      (by simp; omega)
    rw [h, hr] at hl
    simpa [bytes] using hl.symm
  · intro h
    congr 2
    exact List.map_congr_left fun k hk ↦ h k (List.mem_range.mp hk)

@[simp]
theorem store_singleton (mem : Memory) (p : ℕ) (b : BitVec 8) : store mem p [b] p = b :=
  store_inside (k := 0) (show 0 < [b].length from Nat.zero_lt_one)

theorem store_singleton_of_ne {b : BitVec 8} (h : q ≠ p) : store mem p [b] q = mem q :=
  store_outside (by simp; omega)

theorem store_self (mem : Memory) (p : ℕ) : store mem p [mem p] = mem := by
  funext q
  rcases eq_or_ne q p with rfl | hq
  · exact store_singleton mem q (mem q)
  · exact store_singleton_of_ne hq

/-- Stores of bytes at places, one after the other. -/
def storeAll (mem : Memory) (stores : List (ℕ × List (BitVec 8))) : Memory :=
  stores.foldl (fun mem s ↦ store mem s.1 s.2) mem

/-- The byte that the last of the stores to reach a place leaves there. -/
def lastOver (q : ℕ) : List (ℕ × List (BitVec 8)) → Option (BitVec 8)
  | [] => none
  | (p, bs) :: stores =>
    (lastOver q stores).or (if p ≤ q then bs[q - p]? else none)

theorem storeAll_apply (mem : Memory) (stores : List (ℕ × List (BitVec 8))) (q : ℕ) :
    storeAll mem stores q = (lastOver q stores).getD (mem q) := by
  induction stores generalizing mem with
  | nil => rfl
  | cons s stores ih =>
    rw [storeAll, List.foldl_cons, ← storeAll, ih, lastOver]
    cases lastOver q stores with
    | some b => rfl
    | none =>
      rw [Option.getD_none, Option.none_or, store]
      split
      · exact List.getD_eq_getElem?_getD
      · rfl

theorem lastOver_eq_none {stores : List (ℕ × List (BitVec 8))}
    (h : ∀ s ∈ stores, q < s.1 ∨ s.1 + s.2.length ≤ q) : lastOver q stores = none := by
  induction stores with
  | nil => rfl
  | cons s stores ih =>
    rw [lastOver, ih fun s' hs' ↦ h s' (List.mem_cons_of_mem s hs'), Option.none_or]
    split
    · rcases h s List.mem_cons_self with hlt | hle
      · omega
      · exact List.getElem?_eq_none (by omega)
    · rfl

theorem storeAll_outside {stores : List (ℕ × List (BitVec 8))}
    (h : ∀ s ∈ stores, q < s.1 ∨ s.1 + s.2.length ≤ q) : storeAll mem stores q = mem q := by
  rw [storeAll_apply, lastOver_eq_none h, Option.getD_none]

theorem storeAll_append (mem : Memory) (stores stores' : List (ℕ × List (BitVec 8))) :
    storeAll mem (stores ++ stores') = storeAll (storeAll mem stores) stores' :=
  List.foldl_append

/-- The memory holds the bytes from `p` on. -/
def Holds (mem : Memory) (p : ℕ) (bs : List (BitVec 8)) : Prop :=
  ∀ k, ∀ h : k < bs.length, mem (p + k) = bs[k]

theorem holds_store (mem : Memory) (p : ℕ) (bs : List (BitVec 8)) :
    Holds (store mem p bs) p bs :=
  fun _ h ↦ store_inside h

theorem Holds.congr (h : Holds mem p bs) (hm : ∀ q, p ≤ q → q < p + bs.length → mem' q = mem q) :
    Holds mem' p bs := by
  intro k hk
  rw [hm (p + k) (by omega) (by omega)]
  exact h k hk

/-- The bytes of a store stay when no later one reaches them. -/
theorem holds_storeAll {stores stores' : List (ℕ × List (BitVec 8))}
    (h : ∀ s ∈ stores', p + bs.length ≤ s.1 ∨ s.1 + s.2.length ≤ p) :
    Holds (storeAll mem (stores ++ (p, bs) :: stores')) p bs := by
  rw [storeAll_append, storeAll, List.foldl_cons, ← storeAll]
  refine (holds_store _ p bs).congr fun q hlo hhi ↦ storeAll_outside fun s hs ↦ ?_
  have := h s hs
  omega

theorem holds_append {bs' : List (BitVec 8)} :
    Holds mem p (bs ++ bs') ↔ Holds mem p bs ∧ Holds mem (p + bs.length) bs' := by
  constructor
  · intro h
    refine ⟨fun k hk ↦ ?_, fun k hk ↦ ?_⟩
    · rw [h k (by simp; omega), List.getElem_append_left hk]
    · rw [Nat.add_assoc, h (bs.length + k) (by simpa using hk)]
      simp
  · rintro ⟨h, h'⟩ k hk
    rcases Nat.lt_or_ge k bs.length with hlt | hge
    · rw [List.getElem_append_left hlt, h k hlt]
    · obtain ⟨j, rfl⟩ := Nat.exists_eq_add_of_le hge
      rw [← Nat.add_assoc, h' j (by simpa using hk)]
      simp

theorem Holds.load_eq {v : ℕ} {value : BitVec v} (h : Holds mem p (bytes value n))
    (hv : v = 8 * n) (hw : v ≤ w) : (load mem p n : BitVec w) = value.setWidth w :=
  (load_eq_iff value hv hw).mpr fun k hk ↦ by
    rw [h k (by simpa using hk)]
    simp [bytes]

end Library.ByteMemory
