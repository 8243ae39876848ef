import Pciem.Trace.Lookup
import Pciem.Trace.PageTables

namespace Pciem.Trace.Coverage

open Kernel Context Poison

/-- An entry that is present maps what it is found for. -/
def Present (value : BitVec 64) : Prop := value &&& 1 ≠ 0

instance decidablePresent (value : BitVec 64) : Decidable (Present value) :=
  inferInstanceAs (Decidable (_ ≠ _))

section Stops

variable {E L : Type} (p : Paging E L) (t : Tables E)

/-- What is found for an address. -/
def found (a : ℕ) : Option (E × L) := p.find t (BitVec.ofNat 64 a)

def Mapped (a : ℕ) : Prop := ∃ ptep level, found p t a = some (ptep, level) ∧ Present (t ptep)

/-- The addresses below `b` that are met from `a` on when one goes on, from each of them, by the
size of the leaf there. -/
inductive StopAt (b : ℕ) : ℕ → ℕ → Prop
  | first {a : ℕ} : a < b → StopAt b a a
  | next {a c : ℕ} {ptep : E} {level : L} : a < b → found p t a = some (ptep, level) →
      StopAt b (a + p.size level) c → StopAt b a c

/-- The first address of the block that has an address. -/
def blockStart (size a : ℕ) : ℕ := a / size * size

/-- Nothing that is mapped lies between the end of the leaf at an address and the beginning of the
leaf that is one size further on, or else the end of the range. -/
def NoGap (b a : ℕ) : Prop :=
  ∀ ptep level, found p t a = some (ptep, level) →
    ∀ c, Mapped p t c → a ≤ c → blockStart (p.size level) a + p.size level ≤ c →
      c < a + p.size level → c < b → a + p.size level < b ∧
        ∀ ptep' level', found p t (a + p.size level) = some (ptep', level') →
          blockStart (p.size level') (a + p.size level) ≤ c

/-- The loop takes the length for a signed number. -/
structure Snug (a len : ℕ) : Prop where
  signed : (∃ c, a ≤ c ∧ c < a + len ∧ Mapped p t c) → len < 2 ^ 63
  noGap : ∀ c, StopAt p t (a + len) a c → NoGap p t (a + len) c

/-- No entry that maps a byte of the range is present any more. -/
def Covered (t' : Tables E) (a len : ℕ) : Prop :=
  ∀ c, a ≤ c → c < a + len → ∀ ptep level, found p t c = some (ptep, level) → Present (t ptep) →
    ¬ Present (t' ptep)

/-- The entry of an address was present and is so no more. -/
def Cleared (t' : Tables E) (a : ℕ) : Prop :=
  ∃ ptep level, found p t a = some (ptep, level) ∧ Present (t ptep) ∧ ¬ Present (t' ptep)

/-- An entry is for all addresses of a block. -/
def Blocks : Prop :=
  ∀ a c ptep level, found p t a = some (ptep, level) → 0 < p.size level →
    a / p.size level = c / p.size level → found p t c = some (ptep, level)

/-- In a range an entry is for the addresses of one block only. -/
def Owned (a len : ℕ) : Prop :=
  ∀ c d ptep level level', a ≤ c → c < a + len → a ≤ d → d < a + len →
    found p t c = some (ptep, level) → found p t d = some (ptep, level') →
    c / p.size level = d / p.size level

variable {p t} {a b c d : ℕ}

theorem StopAt.le (h : StopAt p t b a c) : a ≤ c := by
  induction h with
  | first => exact le_refl _
  | next _ _ _ ih => omega

theorem StopAt.lt (h : StopAt p t b a c) : c < b := by
  induction h with
  | first hlt => exact hlt
  | next _ _ _ ih => exact ih

theorem StopAt.total (h : StopAt p t b a c) (h' : StopAt p t b a d) :
    StopAt p t b c d ∨ StopAt p t b d c := by
  induction h with
  | first => exact .inl h'
  | next hlt hfound hstop ih =>
    cases h' with
    | first => exact .inr (.next hlt hfound hstop)
    | next hlt' hfound' hstop' =>
      rw [hfound] at hfound'
      cases hfound'
      exact ih hstop'

theorem StopAt.add_le (h : StopAt p t b a c) (hne : a ≠ c) {ptep : E} {level : L}
    (hfound : found p t a = some (ptep, level)) : StopAt p t b (a + p.size level) c := by
  cases h with
  | first => exact absurd rfl hne
  | next hlt hfound' hstop =>
    rw [hfound] at hfound'
    cases hfound'
    exact hstop

theorem StopAt.trans (h : StopAt p t b a c) (h' : StopAt p t b c d) : StopAt p t b a d := by
  induction h with
  | first => exact h'
  | next hlt hfound _ ih => exact .next hlt hfound (ih h')

theorem blockStart_le (size a : ℕ) : blockStart size a ≤ a := Nat.div_mul_le_self a size

theorem lt_blockStart_add {size : ℕ} (hpos : 0 < size) (a : ℕ) : a < blockStart size a + size :=
  Nat.lt_div_mul_add hpos

theorem div_eq_of_block {size : ℕ} (hle : blockStart size a ≤ c)
    (hlt : c < blockStart size a + size) : a / size = c / size := by
  refine (Nat.div_eq_of_lt_le hle ?_).symm
  rwa [Nat.add_mul, Nat.one_mul]

theorem blockStart_congr {size : ℕ} (h : a / size = c / size) :
    blockStart size a = blockStart size c := by
  rw [blockStart, blockStart, h]

theorem dvd_next (hblocks : Blocks p t) {ptep ptep' : E} {level level' : L}
    (ha : found p t a = some (ptep, level)) (hpos : 0 < p.size level) (hdvd : p.size level ∣ a)
    (hn : found p t (a + p.size level) = some (ptep', level')) (hpos' : 0 < p.size level') :
    p.size level' ∣ a + p.size level := by
  by_contra hnot
  have hstart : blockStart (p.size level') (a + p.size level) ≤ a + p.size level - 1 := by
    have hne : blockStart (p.size level') (a + p.size level) ≠ a + p.size level :=
      fun heq ↦ hnot ⟨_, heq.symm.trans (Nat.mul_comm _ _)⟩
    have hle := blockStart_le (p.size level') (a + p.size level)
    omega
  have hend := lt_blockStart_add hpos' (a + p.size level)
  have hself : blockStart (p.size level) a = a := Nat.div_mul_cancel hdvd
  have hbefore := hblocks _ (a + p.size level - 1) _ _ hn hpos' (div_eq_of_block hstart (by omega))
  have hsame := hblocks a (a + p.size level - 1) _ _ ha hpos
    (div_eq_of_block (by omega) (by omega))
  rw [hbefore] at hsame
  cases hsame
  exact hnot (Nat.dvd_add hdvd (dvd_refl _))

theorem dvd_of_stopAt (hblocks : Blocks p t) (hstop : StopAt p t b a c)
    (hpos : ∀ d, StopAt p t b a d → ∀ ptep level, found p t d = some (ptep, level) →
      0 < p.size level)
    (hstart : ∀ ptep level, found p t a = some (ptep, level) → p.size level ∣ a) :
    ∀ ptep level, found p t c = some (ptep, level) → p.size level ∣ c := by
  induction hstop with
  | first => exact hstart
  | @next a c ptep level hlt hfound hstop ih =>
    refine ih (fun d hd ↦ hpos d (.next hlt hfound hd)) fun ptep' level' hn ↦ ?_
    have hnlt : a + p.size level < b := by
      have := hstop.le
      have := hstop.lt
      omega
    exact dvd_next hblocks hfound (hpos a (.first hlt) _ _ hfound) (hstart _ _ hfound) hn
      (hpos _ (.next hlt hfound (.first hnlt)) _ _ hn)

/-- There are no gaps where the first address is the first one of its leaf. -/
theorem noGap_of_start (hblocks : Blocks p t) (hstop : StopAt p t b a c)
    (hpos : ∀ d, StopAt p t b a d → ∀ ptep level, found p t d = some (ptep, level) →
      0 < p.size level)
    (hstart : ∀ ptep level, found p t a = some (ptep, level) → p.size level ∣ a) :
    NoGap p t b c := by
  intro ptep level hc q _ _ hge hlt _
  have hself : blockStart (p.size level) c = c :=
    Nat.div_mul_cancel (dvd_of_stopAt hblocks hstop hpos hstart _ _ hc)
  omega

section Pages

/-- Each byte is mapped by a page of its own. -/
def Paged (p : Paging E L) (t : Tables E) (a b : ℕ) : Prop :=
  ∀ c, a ≤ c → c < b → ∃ ptep level, found p t c = some (ptep, level) ∧
    p.size level = pageSize ∧ Present (t ptep)

theorem stopAt_page (h : Paged p t a b) (i : ℕ) (hlt : a + pageSize * i < b) :
    StopAt p t b a (a + pageSize * i) := by
  induction i generalizing a with
  | zero => exact .first hlt
  | succ i ih =>
    obtain ⟨ptep, level, hfound, hsize, -⟩ := h a (le_refl a) (by omega)
    have heq : a + pageSize * (i + 1) = a + pageSize + pageSize * i := by
      rw [Nat.mul_succ]
      omega
    rw [heq] at hlt ⊢
    refine .next (by omega) hfound ?_
    rw [hsize]
    exact ih (fun c hle ↦ h c (by omega)) hlt

theorem page_of_stopAt (h : Paged p t a b) (hstop : StopAt p t b a c) :
    ∃ i, c = a + pageSize * i := by
  induction hstop with
  | first => exact ⟨0, rfl⟩
  | @next a c ptep level hlt hfound hstop ih =>
    obtain ⟨ptep', level', hfound', hsize, -⟩ := h a (le_refl a) hlt
    rw [hfound] at hfound'
    cases hfound'
    obtain ⟨i, hi⟩ := ih fun d hle ↦ h d (by omega)
    refine ⟨i + 1, ?_⟩
    rw [hi, hsize, Nat.mul_succ]
    omega

/-- Where there are pages only, there are no gaps just where the last page is stopped at. -/
theorem snug_iff_of_paged {len : ℕ} (h : Paged p t a (a + len)) (hpos : 0 < len) :
    Snug p t a len ↔
      len < 2 ^ 63 ∧ a % pageSize + len ≤ pageSize * ((len + (pageSize - 1)) / pageSize) := by
  unfold pageSize
  constructor
  · intro hsnug
    obtain ⟨ptep, level, hfound, hsize, hpresent⟩ := h a (le_refl a) (by omega)
    refine ⟨hsnug.signed ⟨a, le_refl a, by omega, _, _, hfound, hpresent⟩, ?_⟩
    by_contra hlt
    let i := (len - 1) / 0x1000
    have hi : a + pageSize * i < a + len := by
      unfold pageSize
      omega
    obtain ⟨ptep', level', hfound', hsize', -⟩ := h (a + pageSize * i) (by omega) hi
    let q := blockStart pageSize (a + pageSize * i) + pageSize
    have hq : q < a + len := by
      simp only [q, i, blockStart, pageSize]
      omega
    have hqle : a + pageSize * i ≤ q := by
      simp only [q, i, blockStart, pageSize]
      omega
    obtain ⟨ptep'', level'', hfound'', -, hpresent''⟩ := h q (by omega) hq
    have hgap := hsnug.noGap _ (stopAt_page h i hi) _ _ hfound' q ⟨_, _, hfound'', hpresent''⟩ hqle
    rw [hsize'] at hgap
    have hnext := (hgap (le_refl q) (by simp only [q, i, blockStart, pageSize]; omega) hq).1
    simp only [i, pageSize] at hnext
    omega
  · rintro ⟨hlen, hle⟩
    refine ⟨fun _ ↦ hlen, fun c hstop ptep level hc q _ hcq hge hlt hqb ↦ ?_⟩
    obtain ⟨i, hi⟩ := page_of_stopAt h hstop
    have hsize {d : ℕ} (had : a ≤ d) (hdb : d < a + len) {ptep : E} {level : L}
        (hd : found p t d = some (ptep, level)) : p.size level = 0x1000 := by
      obtain ⟨ptep', level', hd', hsize, -⟩ := h d had hdb
      rw [hd] at hd'
      cases hd'
      exact hsize
    have hcb := hstop.lt
    have hca := hstop.le
    rw [hsize hca hcb hc] at hge hlt ⊢
    unfold blockStart at hge
    unfold pageSize at hi
    have hnext : c + 0x1000 < a + len := by omega
    refine ⟨by omega, fun ptep' level' hn ↦ ?_⟩
    have hdiv : (c + 0x1000) / 0x1000 = c / 0x1000 + 1 := Nat.add_div_right c (by decide)
    rwa [hsize (by omega) hnext hn, blockStart, hdiv, Nat.succ_mul]

end Pages

end Stops

section Walks

variable {E L : Type} [DecidableEq E] {p : Paging E L} {t t' u : Tables E} {a b c : ℕ}
  {va : BitVec 64} {remain : ℤ} {stops : List (Stop E L)}

/-- What each stop finds is in the table. -/
def Found (p : Paging E L) (t : Tables E) (stops : List (Stop E L)) : Prop :=
  ∀ s ∈ stops, p.find t s.va = some (s.ptep, s.level)

theorem stopAt_of_mem (h : Walked p u va remain stops) (hfound : Found p t stops)
    (hva : va = BitVec.ofNat 64 a) (hremain : remain = (b : ℤ) - a) :
    ∀ s ∈ stops, ∃ c, StopAt p t b a c ∧ s.va = BitVec.ofNat 64 c := by
  induction h generalizing a with
  | done => simp
  | @stop u va remain ptep level stops hpos hfind hpoison hwalked ih =>
    have hhead : found p t a = some (ptep, level) := by
      rw [found, ← hva]
      exact hfound _ List.mem_cons_self
    have hlt : a < b := by omega
    intro s hs
    rcases List.mem_cons.mp hs with rfl | hmem
    · exact ⟨a, .first hlt, hva⟩
    · obtain ⟨c, hstop, hc⟩ := ih (a := a + p.size level)
        (fun s hs ↦ hfound s (List.mem_cons_of_mem _ hs)) (by rw [hva, BitVec.ofNat_add])
        (by push_cast; omega) s hmem
      exact ⟨c, .next hlt hhead hstop, hc⟩

theorem mem_of_stopAt (h : Walked p u va remain stops) (hfound : Found p t stops)
    (hva : va = BitVec.ofNat 64 a) (hremain : remain = (b : ℤ) - a) (hstop : StopAt p t b a c) :
    ∃ s ∈ stops, found p t c = some (s.ptep, s.level) := by
  induction h generalizing a with
  | done hle =>
    have := hstop.le
    have := hstop.lt
    omega
  | @stop u va remain ptep level stops hpos hfind hpoison hwalked ih =>
    have hhead : found p t a = some (ptep, level) := by
      rw [found, ← hva]
      exact hfound _ List.mem_cons_self
    by_cases heq : a = c
    · exact ⟨_, List.mem_cons_self, heq ▸ hhead⟩
    · obtain ⟨s, hs, hc⟩ := ih (a := a + p.size level)
        (fun s hs ↦ hfound s (List.mem_cons_of_mem _ hs)) (by rw [hva, BitVec.ofNat_add])
        (by push_cast; omega) (hstop.add_le heq hhead)
      exact ⟨s, List.mem_cons_of_mem _ hs, hc⟩

/-- Each address of the range lies between a stop and the next. -/
theorem exists_stopAt (h : Walked p u va remain stops) (hfound : Found p t stops)
    (hva : va = BitVec.ofNat 64 a) (hremain : remain = (b : ℤ) - a) (hle : a ≤ c) (hlt : c < b) :
    ∃ d ptep level, StopAt p t b a d ∧ found p t d = some (ptep, level) ∧ d ≤ c ∧
      c < d + p.size level := by
  induction h generalizing a with
  | done => omega
  | @stop u va remain ptep level stops hpos hfind hpoison hwalked ih =>
    have hhead : found p t a = some (ptep, level) := by
      rw [found, ← hva]
      exact hfound _ List.mem_cons_self
    by_cases hc : c < a + p.size level
    · exact ⟨a, ptep, level, .first (by omega), hhead, hle, hc⟩
    · obtain ⟨d, ptep', level', hstop, hrest⟩ := ih (a := a + p.size level)
        (fun s hs ↦ hfound s (List.mem_cons_of_mem _ hs)) (by rw [hva, BitVec.ofNat_add])
        (by push_cast; omega) (by omega)
      exact ⟨d, ptep', level', .next (by omega) hhead hstop, hrest⟩

/-- No value that takes the place of an entry is present. -/
def Hides (p : Paging E L) : Prop :=
  ∀ level value pte, p.poisoned level value = some pte → ¬ Present pte

theorem not_present_swapped (hhides : Hides p) {ptep : E}
    (h : ¬ Present (t ptep) ∨ ∃ s ∈ stops, s.ptep = ptep) :
    ¬ Present (p.swapped t stops ptep) := by
  induction stops generalizing t with
  | nil => exact h.resolve_right (by simp)
  | cons s stops ih =>
    refine ih ?_
    by_cases hs : ptep = s.ptep
    · left
      rw [hs, Paging.swap, Function.update_self]
      cases hpoison : p.poisoned s.level (t s.ptep) with
      | none => decide
      | some pte => exact hhides _ _ _ hpoison
    · rw [Paging.swap, Function.update_of_ne hs]
      refine h.imp_right ?_
      rintro ⟨s', hs', heq⟩
      rcases List.mem_cons.mp hs' with rfl | hmem
      · exact absurd heq.symm hs
      · exact ⟨s', hmem, heq⟩

theorem hidden_iff (hhides : Hides p) {ptep : E} (hpresent : Present (t ptep)) :
    ¬ Present (p.swapped t stops ptep) ↔ ∃ s ∈ stops, s.ptep = ptep := by
  constructor
  · intro h
    by_contra hnone
    refine h ?_
    rwa [swapped_of_notMem fun s hs heq ↦ hnone ⟨s, hs, heq⟩]
  · exact fun h ↦ not_present_swapped hhides (.inr h)

theorem size_pos (h : Walked p u va remain stops) : ∀ s ∈ stops, 0 < p.size s.level := by
  induction h with
  | done => simp
  | stop hpos hfind hpoison hwalked ih =>
    have hle := p.le_size hpoison
    intro s hs
    rcases List.mem_cons.mp hs with rfl | hmem
    · exact lt_of_lt_of_le (by decide) hle
    · exact ih s hmem

section Ranges

variable (hwalked : Walked p u (BitVec.ofNat 64 a) remain stops) (hfound : Found p t stops)
  (hremain : remain = (b : ℤ) - a) (hblocks : Blocks p t)

include hwalked hfound hremain hblocks

/-- Where there are no gaps, a stop has found each entry that maps a byte of the range. -/
theorem mem_of_noGap (hgap : ∀ c, StopAt p t b a c → NoGap p t b c) (hle : a ≤ c) (hlt : c < b)
    {ptep : E} {level : L} (hc : found p t c = some (ptep, level)) (hpresent : Present (t ptep)) :
    ∃ s ∈ stops, s.ptep = ptep := by
  have hentry {d : ℕ} (hstop : StopAt p t b a d) (hblock : ∀ ptep level,
      found p t d = some (ptep, level) → d / p.size level = c / p.size level) :
      ∃ s ∈ stops, s.ptep = ptep := by
    obtain ⟨s, hs, hd⟩ := mem_of_stopAt hwalked hfound rfl hremain hstop
    have hsame := hblocks d c _ _ hd (size_pos hwalked s hs) (hblock _ _ hd)
    rw [hc] at hsame
    cases hsame
    exact ⟨s, hs, rfl⟩
  obtain ⟨d, ptep', level', hstop, hd, hdle, hdlt⟩ :=
    exists_stopAt hwalked hfound rfl hremain hle hlt
  by_cases hin : c < blockStart (p.size level') d + p.size level'
  · refine hentry hstop fun ptep'' level'' hd' ↦ ?_
    rw [hd] at hd'
    cases hd'
    exact div_eq_of_block ((blockStart_le _ d).trans hdle) hin
  · obtain ⟨hnext, hstart⟩ :=
      hgap d hstop _ _ hd c ⟨_, _, hc, hpresent⟩ hdle (not_lt.mp hin) hdlt hlt
    have hstop' : StopAt p t b a (d + p.size level') :=
      hstop.trans (.next hstop.lt hd (.first hnext))
    refine hentry hstop' fun ptep'' level'' hd' ↦ ?_
    obtain ⟨s, hs, hd''⟩ := mem_of_stopAt hwalked hfound rfl hremain hstop'
    rw [hd''] at hd'
    cases hd'
    have hafter := lt_blockStart_add (size_pos hwalked s hs) (d + p.size level')
    exact div_eq_of_block (hstart _ _ hd'') (by omega)

/-- Where an entry maps one block only, a gap hides an entry from the loop. -/
theorem noGap_of_mem (howned : Owned p t a (b - a))
    (hmem : ∀ c, a ≤ c → c < b → ∀ ptep level, found p t c = some (ptep, level) →
      Present (t ptep) → ∃ s ∈ stops, s.ptep = ptep) (hstop : StopAt p t b a c) :
    NoGap p t b c := by
  intro ptep level hc q hq hcq hge hlt hqb
  obtain ⟨ptep', level', hqfound, hpresent⟩ := hq
  have hac := hstop.le
  have hsize : 0 < p.size level := by
    obtain ⟨s, hs, hc'⟩ := mem_of_stopAt hwalked hfound rfl hremain hstop
    rw [hc] at hc'
    cases hc'
    exact size_pos hwalked s hs
  have hcblock := lt_blockStart_add hsize c
  obtain ⟨s, hs, rfl⟩ := hmem q (by omega) hqb ptep' level' hqfound hpresent
  obtain ⟨d, hstop', hd⟩ := stopAt_of_mem hwalked hfound rfl hremain s hs
  have hdfound : found p t d = some (s.ptep, s.level) := by
    rw [found, ← hd]
    exact hfound s hs
  have had := hstop'.le
  have hdb := hstop'.lt
  have hsame := howned d q _ _ _ had (by omega) (by omega) (by omega) hdfound hqfound
  have hspos := size_pos hwalked s hs
  -- the block of the stop that has found the entry has the address, too
  have hqlt := lt_blockStart_add hspos q
  rw [← blockStart_congr hsame] at hqlt
  have hdlt := lt_blockStart_add hspos d
  rw [blockStart_congr hsame] at hdlt
  have hdle := blockStart_le (p.size s.level) d
  have hqle := blockStart_le (p.size s.level) q
  rcases hstop'.total hstop with hafter | hbefore
  · by_cases heq : d = c
    · subst heq
      rw [hc] at hdfound
      cases hdfound
      omega
    · have hle := (hafter.add_le heq hdfound).le
      omega
  · have hne : c ≠ d := by
      rintro rfl
      rw [hc] at hdfound
      cases hdfound
      omega
    have hnext := hbefore.add_le hne hc
    have hle := hnext.le
    refine ⟨by omega, fun ptep'' level'' hn ↦ ?_⟩
    by_cases heq : c + p.size level = d
    · rw [heq] at hn ⊢
      rw [hdfound] at hn
      cases hn
      rwa [blockStart_congr hsame]
    · have hblock : d / p.size s.level = (c + p.size level) / p.size s.level := by
        refine le_antisymm ?_ (Nat.div_le_div_right hle)
        rw [hsame]
        exact Nat.div_le_div_right (by omega)
      have hle' := (hnext.add_le heq (hblocks d _ _ _ hdfound hspos hblock)).le
      omega

end Ranges

section Poisoned

variable {kzalloc : ℕ → Bool} {map : SmptraceMap} {ptes : List (SmptracePte L)}
  (hstable : ∀ {va remain stops}, Walked p t va remain stops → Found p t stops)
  (hhides : Hides p) (hblocks : Blocks p t) (h : poisonPte p kzalloc map t = (.ok ptes, t'))

include hstable hhides h

/-- Where the length is taken for what it is, the loop has found what its stops find. -/
theorem exists_stops (hlen : map.len.toNat < 2 ^ 63) :
    ∃ stops, Walked p t (BitVec.ofNat 64 map.va.toNat) map.len.toInt stops ∧ Found p t stops ∧
      map.len.toInt = ((map.va.toNat + map.len.toNat : ℕ) : ℤ) - map.va.toNat ∧
        ∀ ptep, Present (t ptep) → (¬ Present (t' ptep) ↔ ∃ s ∈ stops, s.ptep = ptep) := by
  obtain ⟨stops, hwalked, -, rfl⟩ := walked_of_poisonLoop h
  have hremain : map.len.toInt = map.len.toNat := BitVec.toInt_eq_toNat_of_lt (by omega)
  refine ⟨stops, ?_, hstable hwalked, by push_cast; omega, fun ptep hp ↦ hidden_iff hhides hp⟩
  rwa [BitVec.ofNat_toNat, BitVec.setWidth_eq]

include hblocks

theorem covered_of_snug (hsnug : Snug p t map.va.toNat map.len.toNat) :
    Covered p t t' map.va.toNat map.len.toNat := by
  intro c hle hlt ptep level hc hpresent
  have hlen := hsnug.signed ⟨c, hle, hlt, ptep, level, hc, hpresent⟩
  obtain ⟨stops, hwalked, hfound, hremain, hhidden⟩ := exists_stops hstable hhides h hlen
  rw [hhidden ptep hpresent]
  exact mem_of_noGap hwalked hfound hremain hblocks hsnug.noGap hle hlt hc hpresent

/-- The loop covers a range whose first address is the first one of its leaf. -/
theorem covered_of_start (hlen : map.len.toNat < 2 ^ 63)
    (hstart : ∀ ptep level, found p t map.va.toNat = some (ptep, level) →
      p.size level ∣ map.va.toNat) : Covered p t t' map.va.toNat map.len.toNat := by
  obtain ⟨stops, hwalked, hfound, hremain, -⟩ := exists_stops hstable hhides h hlen
  refine covered_of_snug hstable hhides hblocks h
    ⟨fun _ ↦ hlen, fun c hstop ↦ noGap_of_start hblocks hstop ?_ hstart⟩
  intro d hd ptep level hd'
  obtain ⟨s, hs, hs'⟩ := mem_of_stopAt hwalked hfound rfl hremain hd
  rw [hd'] at hs'
  cases hs'
  exact size_pos hwalked s hs

theorem snug_of_covered (howned : Owned p t map.va.toNat map.len.toNat)
    (hcovered : Covered p t t' map.va.toNat map.len.toNat) :
    Snug p t map.va.toNat map.len.toNat := by
  by_cases hlen : map.len.toNat < 2 ^ 63
  · obtain ⟨stops, hwalked, hfound, hremain, hhidden⟩ :=
      exists_stops hstable hhides h hlen
    refine ⟨fun _ ↦ hlen, fun c hstop ↦
      noGap_of_mem hwalked hfound hremain hblocks (by simpa using howned) ?_ hstop⟩
    intro c hle hlt ptep level hc hpresent
    rw [← hhidden ptep hpresent]
    exact hcovered c hle hlt ptep level hc hpresent
  · -- the loop is left at once
    have hneg : ¬ map.len.toInt > 0 := by
      rw [BitVec.toInt_eq_toNat_cond, if_neg (by omega)]
      have := map.len.isLt
      omega
    rw [poisonPte, poisonLoop_done hneg] at h
    cases h
    have hnone : ∀ c, map.va.toNat ≤ c → c < map.va.toNat + map.len.toNat → ¬ Mapped p t c := by
      rintro c hle hlt ⟨ptep, level, hc, hpresent⟩
      exact hcovered c hle hlt ptep level hc hpresent hpresent
    refine ⟨?_, fun c hstop ↦ ?_⟩
    · rintro ⟨c, hle, hlt, hc⟩
      exact absurd hc (hnone c hle hlt)
    exact fun _ _ _ q hq hcq _ _ hqb ↦ absurd hq (hnone q (hstop.le.trans hcq) hqb)

end Poisoned

end Walks

section Walkers

open Library.PageWalk Walkers PageTables

def shift : Level → ℕ
  | .pte => 12
  | .pmd => 21
  | .pud => 30

theorem size_eq (level : Level) : level.size = 2 ^ shift level := by
  cases level with
  | pte | pmd | pud => rfl

/-- Where a walk ends does not depend on the lower bits of the address. -/
def Aligned (w : Walker (BitVec 64)) : Prop :=
  ∀ (level : Level) (va va' : BitVec 64), va >>> shift level = va' >>> shift level →
    w.first va = w.first va' ∧ Agree .pte level va va' w.stages

theorem shiftRight_ofNat {a c n : ℕ} (hn : n ≤ 64) (h : a / 2 ^ n = c / 2 ^ n) :
    BitVec.ofNat 64 a >>> n = BitVec.ofNat 64 c >>> n := by
  apply BitVec.eq_of_toNat_eq
  have hpow : (2 : ℕ) ^ 64 = 2 ^ n * 2 ^ (64 - n) := by
    rw [← Nat.pow_add, Nat.add_sub_cancel' hn]
  rw [BitVec.toNat_ushiftRight, BitVec.toNat_ushiftRight, BitVec.toNat_ofNat, BitVec.toNat_ofNat,
    Nat.shiftRight_eq_div_pow, Nat.shiftRight_eq_div_pow, hpow, Nat.mod_mul_right_div_self,
    Nat.mod_mul_right_div_self, h]

variable {w : Walker (BitVec 64)} {t t' : Tables (BitVec 64)}

theorem blocks_of_aligned (h : Aligned w) (t : Tables (BitVec 64)) : Blocks w.paging t := by
  intro a c ptep level hfound _ hblock
  have hsize : w.paging.size level = 2 ^ shift level := size_eq level
  rw [hsize] at hblock
  have hshift : shift level ≤ 64 := by
    cases level with
    | pte | pmd | pud => decide
  obtain ⟨hfirst, hagree⟩ := h level _ _ (shiftRight_ofNat hshift hblock)
  have hwalk : walk .pte t (BitVec.ofNat 64 a) w.stages (w.first (BitVec.ofNat 64 a)) =
      some (ptep, level) := hfound
  rw [hfirst] at hwalk
  exact walk_agree hagree hwalk

theorem hides_walker (w : Walker (BitVec 64)) : Hides w.paging := by
  intro level value pte h
  cases h
  decide

theorem stable_walker {va : BitVec 64} {remain : ℤ} {stops : List (Stop (BitVec 64) Level)}
    (h : Walked w.paging t va remain stops) : Found w.paging t stops :=
  find_stop h (.refl t)

theorem shiftRight_of_le {va va' : BitVec 64} {m n : ℕ} (hle : m ≤ n) (h : va >>> m = va' >>> m) :
    va >>> n = va' >>> n := by
  obtain ⟨d, rfl⟩ := Nat.exists_eq_add_of_le hle
  rw [BitVec.shiftRight_add, BitVec.shiftRight_add, h]

theorem shift_le (level : Level) : shift level ≤ 30 := by
  cases level with
  | pte | pmd | pud => decide

theorem aligned_riscv (physToVirt : BitVec 64 → BitVec 64) (satp : BitVec 64) :
    Aligned (riscvWalkPte physToVirt satp) := by
  intro level va va' h
  have hle := shift_le level
  have hentry {n : ℕ} (hn : shift level ≤ n) (pa : BitVec 64) :
      riscvEntry physToVirt pa va n = riscvEntry physToVirt pa va' n := by
    rw [riscvEntry, riscvEntry, shiftRight_of_le hn h]
  have hcons (level' : Level) (n : ℕ) (stages : List (Stage _ _ _ Level))
      (hn : (level = .pte ∨ ∃ s ∈ stages, s.level = level) → shift level ≤ n)
      (hrest : Agree .pte level va va' stages) :
      Agree .pte level va va' (riscvStage physToVirt level' n :: stages) :=
    ⟨fun hl _ _ ↦ hentry (hn hl) _, hrest⟩
  have hlast : Agree .pte level va va' [riscvStage physToVirt .pmd pageShift] := by
    refine hcons _ _ _ (fun hl ↦ ?_) trivial
    have hpte : level = .pte := hl.resolve_right (by simp)
    rw [hpte]
    decide
  have htail : Agree .pte level va va'
      [riscvStage physToVirt .pud 21, riscvStage physToVirt .pmd pageShift] := by
    refine hcons _ _ _ (fun hl ↦ ?_) hlast
    rcases hl with rfl | ⟨s, hs, rfl⟩
    · decide
    · rw [List.mem_singleton.mp hs]
      exact (by decide : shift .pmd ≤ 21)
  refine ⟨hentry ?_ _, ?_⟩
  · split_ifs
    · omega
    · omega
    · omega
  · change Agree .pte level va va' (riscvStages physToVirt (satp >>> riscvSatpModeShift))
    unfold riscvStages
    split_ifs
    · exact hcons _ _ _ (fun _ ↦ by omega) (hcons _ _ _ (fun _ ↦ hle) htail)
    · exact hcons _ _ _ (fun _ ↦ by omega) htail
    · exact hcons _ _ _ (fun _ ↦ hle) htail
    · exact htail

/-- The entry of a table depends on the bits of the address that its level has only. -/
structure Arm64Offsets (k : Arm64Pgtable) : Prop where
  pgd : ∀ va va' : BitVec 64, va >>> 30 = va' >>> 30 → k.pgdOffsetPgd va = k.pgdOffsetPgd va'
  p4d : ∀ e v (va va' : BitVec 64), va >>> 30 = va' >>> 30 →
    k.p4dOffset e v va = k.p4dOffset e v va'
  pud : ∀ e v (va va' : BitVec 64), va >>> 30 = va' >>> 30 →
    k.pudOffset e v va = k.pudOffset e v va'
  pmd : ∀ e v (va va' : BitVec 64), va >>> 21 = va' >>> 21 →
    k.pmdOffset e v va = k.pmdOffset e v va'
  pte : ∀ e v (va va' : BitVec 64), va >>> 12 = va' >>> 12 →
    k.pteOffsetKernel e v va = k.pteOffsetKernel e v va'

theorem aligned_arm64 {k : Arm64Pgtable} (hk : Arm64Offsets k) : Aligned (arm64WalkPte k) := by
  intro level va va' h
  have h30 := shiftRight_of_le (shift_le level) h
  refine ⟨hk.pgd _ _ h30, fun _ e v ↦ hk.p4d e v _ _ h30, fun _ e v ↦ hk.pud e v _ _ h30,
    fun hl e v ↦ hk.pmd e v _ _ (shiftRight_of_le ?_ h),
    fun hl e v ↦ hk.pte e v _ _ (shiftRight_of_le ?_ h), trivial⟩
  · rcases hl with rfl | ⟨s, hs, rfl⟩
    · decide
    · rw [List.mem_singleton.mp hs]
      exact (by decide : shift .pmd ≤ 21)
  · have hpte : level = .pte := hl.resolve_right (by simp)
    rw [hpte]
    decide

end Walkers

section X86

open Lookup

variable {E : Type} [DecidableEq E] {k : X86Pgtable E}

/-- An entry that the kernel has made invalid is not present. -/
def Invalid (k : X86Pgtable E) : Prop :=
  ∀ value, ¬ Present (k.pmdMkinvalid value) ∧ ¬ Present (k.pudMkinvalid value)

theorem hides_x86 (h : Invalid k) : Hides k.paging := by
  intro level value pte hpte
  cases level with
  | l4K =>
    cases hpte
    decide
  | l2M =>
    cases hpte
    exact (h value).1
  | l1G =>
    cases hpte
    exact (h value).2
  | l512G => cases hpte

theorem stable_x86 {t : Tables E} {va : BitVec 64} {remain : ℤ} {stops : List (Stop E PgLevel)}
    (h : Walked k.paging t va remain stops) : Found k.paging t stops :=
  fun s hs ↦ (finds_of_walked h s hs).1

end X86

/-- A range is covered where it is snug, and only there if an entry maps one block of it. So it is
where the range begins with its first leaf; and one of pages is snug where these are no more than
the length has. -/
structure CoveredWhereSnug {E L : Type} (p : Paging E L) (t t' : Tables E) (map : SmptraceMap) :
    Prop where
  covered : Snug p t map.va.toNat map.len.toNat → Covered p t t' map.va.toNat map.len.toNat
  snug : Owned p t map.va.toNat map.len.toNat → Covered p t t' map.va.toNat map.len.toNat →
    Snug p t map.va.toNat map.len.toNat
  start : map.len.toNat < 2 ^ 63 → (∀ ptep level, found p t map.va.toNat = some (ptep, level) →
    p.size level ∣ map.va.toNat) → Covered p t t' map.va.toNat map.len.toNat
  pages : Paged p t map.va.toNat (map.va.toNat + map.len.toNat) → 0 < map.len.toNat →
    (Snug p t map.va.toNat map.len.toNat ↔ map.len.toNat < 2 ^ 63 ∧
      map.va.toNat % pageSize + map.len.toNat ≤
        pageSize * ((map.len.toNat + (pageSize - 1)) / pageSize))

/-- Where poisoning does not fail, nothing that maps a byte of the range is left just where there
are no gaps between the leaves that the loop stops at. -/
theorem covered_where_snug (kzalloc : ℕ → Bool) (map : SmptraceMap) :
    (∀ (physToVirt : BitVec 64 → BitVec 64) (satp : BitVec 64) (t t' : Tables (BitVec 64))
      (ptes : List (SmptracePte Walkers.Level)),
      PageTables.riscvPoisonPte physToVirt satp kzalloc map t = (.ok ptes, t') →
      CoveredWhereSnug (PageTables.riscvWalkPte physToVirt satp).paging t t' map) ∧
    (∀ (k : PageTables.Arm64Pgtable) (t t' : Tables (BitVec 64))
      (ptes : List (SmptracePte Walkers.Level)), Arm64Offsets k →
      PageTables.arm64PoisonPte k kzalloc map t = (.ok ptes, t') →
      CoveredWhereSnug (PageTables.arm64WalkPte k).paging t t' map) ∧
    ∀ (E : Type) [DecidableEq E] (k : Lookup.X86Pgtable E) (t t' : Tables E)
      (ptes : List (SmptracePte Lookup.PgLevel)),
      Invalid k → Blocks k.paging t → Lookup.poisonPte k kzalloc map t = (.ok ptes, t') →
      CoveredWhereSnug k.paging t t' map := by
  refine ⟨?_, ?_, ?_⟩
  · intro physToVirt satp t t' ptes h
    have hblocks := blocks_of_aligned (aligned_riscv physToVirt satp) t
    exact ⟨covered_of_snug stable_walker (hides_walker _) hblocks h,
      snug_of_covered stable_walker (hides_walker _) hblocks h,
      covered_of_start stable_walker (hides_walker _) hblocks h, snug_iff_of_paged⟩
  · intro k t t' ptes hk h
    have hblocks := blocks_of_aligned (aligned_arm64 hk) t
    exact ⟨covered_of_snug stable_walker (hides_walker _) hblocks h,
      snug_of_covered stable_walker (hides_walker _) hblocks h,
      covered_of_start stable_walker (hides_walker _) hblocks h, snug_iff_of_paged⟩
  · intro E _ k t t' ptes hinvalid hblocks h
    exact ⟨covered_of_snug stable_x86 (hides_x86 hinvalid) hblocks h,
      snug_of_covered stable_x86 (hides_x86 hinvalid) hblocks h,
      covered_of_start stable_x86 (hides_x86 hinvalid) hblocks h, snug_iff_of_paged⟩

section Examples

open PageTables Lookup

theorem arm64Offsets_arm64Pgtable : Arm64Offsets arm64Pgtable := by
  have hshift {n m : ℕ} (hle : m ≤ n) {va va' : BitVec 64} (h : va >>> m = va' >>> m) :=
    shiftRight_of_le hle h
  refine ⟨fun va va' h ↦ ?_, fun e v va va' h ↦ rfl, fun e v va va' h ↦ ?_,
    fun e v va va' h ↦ ?_, fun e v va va' h ↦ ?_⟩
  · simp only [arm64Pgtable, hshift (show 30 ≤ 39 by decide) h]
  · simp only [arm64Pgtable, h]
  · simp only [arm64Pgtable, h]
  · simp only [arm64Pgtable, h]

theorem invalid_mixed : Invalid mixed := by
  have hclear : ∀ value : BitVec 64, ¬ Present (value &&& ~~~0x101) := by
    intro value h
    refine h ?_
    rw [BitVec.and_assoc, show (~~~0x101 &&& 1 : BitVec 64) = 0 by decide]
    exact BitVec.and_zero
  exact fun value ↦ ⟨hclear value, hclear value⟩

theorem blocks_mixed (t : Tables (PgLevel × BitVec 64)) : Blocks mixed.paging t := by
  intro a c ptep level hfound _ hblock
  have hlookup : mixed.lookupAddress t (BitVec.ofNat 64 a) = some (ptep, level) := hfound
  change mixed.lookupAddress t (BitVec.ofNat 64 c) = some (ptep, level)
  simp only [mixed] at hlookup ⊢
  split_ifs at hlookup with hbit
  · cases hlookup
    have hshift := shiftRight_ofNat (n := 21) (by decide) hblock
    rw [← hshift, if_pos hbit]
  · cases hlookup
    have hshift := shiftRight_ofNat (n := 12) (by decide) hblock
    rw [← shiftRight_of_le (by decide) hshift, if_neg hbit, hshift]

theorem covered_where_snug_examples :
    CoveredWhereSnug (riscvWalkPte id satp).paging riscvPage (Function.update riscvPage 0x3000 0)
      onePage ∧
    CoveredWhereSnug (arm64WalkPte arm64Pgtable).paging arm64Page
      (Function.update arm64Page 0x4000 0) onePage ∧
    ∃ t', CoveredWhereSnug mixed.paging mixedTable t' mixedMap := by
  obtain ⟨ptes, t', h⟩ := poison_mixed
  exact ⟨(covered_where_snug (fun _ ↦ true) onePage).1 id satp riscvPage _ _
      (poisonPte_one (by decide) (by decide) riscv_find),
    (covered_where_snug (fun _ ↦ true) onePage).2.1 arm64Pgtable arm64Page _ _
      arm64Offsets_arm64Pgtable (poisonPte_one (by decide) (by decide) arm64_find),
    t', (covered_where_snug (fun _ ↦ true) mixedMap).2.2 _ mixed mixedTable t' ptes invalid_mixed
      (blocks_mixed mixedTable) h⟩

/-- It begins in the middle of a page. -/
def halfway : SmptraceMap := ⟨0xFFFFFFC800000800, 0x1000, 0x10000800⟩

def twoPages : Tables (BitVec 64)
  | 0x1900 => 0x801
  | 0x2000 => 0xC01
  | 0x3000 => 0x4000007
  | 0x3008 => 0x4000407
  | _ => 0

/-- The second page is still there. -/
theorem second_page_stays : ∃ ptes t', riscvPoisonPte id satp (fun _ ↦ true) halfway twoPages =
    (.ok ptes, t') ∧ ¬ Covered (riscvWalkPte id satp).paging twoPages t' halfway.va.toNat
      halfway.len.toNat := by
  have hfind : (riscvWalkPte id satp).find twoPages halfway.va = some (0x3000, .pte) := by decide
  refine ⟨_, _, poisonPte_one (by decide) (by decide) hfind, fun h ↦ ?_⟩
  have hsecond : found (riscvWalkPte id satp).paging twoPages 0xFFFFFFC800001000 =
      some (0x3008, .pte) := by
    decide
  exact h 0xFFFFFFC800001000 (by decide) (by decide) _ _ hsecond (by decide) (by decide)

end Examples

end Pciem.Trace.Coverage
