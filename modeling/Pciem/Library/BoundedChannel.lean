import Pciem.Library.TransitionSystem
import Mathlib.Data.Nat.ModEq
import Mathlib.Logic.Function.Basic

namespace Library.BoundedChannel

open Library.TransitionSystem

variable {α : Type*}

/-- What a bounded channel is for: a growing log of accepted messages, the number
of them the receiver has read and the number whose room it has given back. -/
structure Channel (α : Type*) where
  accepted : List α
  read : ℕ
  released : ℕ

inductive Channel.Step (capacity : ℕ) : Channel α → Channel α → Prop
  | accept {c : Channel α} (a : α) : c.accepted.length < c.released + capacity →
      Channel.Step capacity c { c with accepted := c.accepted ++ [a] }
  | read {c : Channel α} : c.read = c.released → c.read < c.accepted.length →
      Channel.Step capacity c { c with read := c.read + 1 }
  | release {c : Channel α} : c.released < c.read →
      Channel.Step capacity c { c with released := c.released + 1 }

def channel (α : Type*) (capacity : ℕ) : System (Channel α) where
  init c := c = ⟨[], 0, 0⟩
  next := Channel.Step capacity

/-- A reachable channel never holds more than its capacity, and the receiver is
at most one message ahead of the room it has given back. -/
theorem channel_bounds {capacity : ℕ} {c : Channel α} (h : (channel α capacity).Reachable c) :
    c.released ≤ c.read ∧ c.read ≤ c.released + 1 ∧ c.read ≤ c.accepted.length ∧
      c.accepted.length ≤ c.released + capacity := by
  refine h.invariant (I := fun c ↦ c.released ≤ c.read ∧ c.read ≤ c.released + 1 ∧
    c.read ≤ c.accepted.length ∧ c.accepted.length ≤ c.released + capacity) ?_ ?_
  · intro c hc
    subst hc
    simp
  · intro c d hc hs
    obtain ⟨h₁, h₂, h₃, h₄⟩ := hc
    cases hs with
    | accept a ha =>
      simp only [List.length_append, List.length_singleton]
      omega
    | read he hl => dsimp only; omega
    | release hl => dsimp only; omega

/-- The slots of a circular buffer of size `n` show the part of `log` from
position `lo` on: message `i` sits in slot `i % n`. -/
def Window (n : ℕ) (slot : ℤ → α) (log : List α) (lo : ℕ) : Prop :=
  ∀ i, lo ≤ i → ∀ h : i < log.length, slot ((i % n : ℕ) : ℤ) = log[i]

theorem mod_ne_of_lt {n i j : ℕ} (hij : i < j) (hn : j < i + n) : i % n ≠ j % n := by
  intro he
  have hd : n ∣ j - i := (Nat.modEq_iff_dvd' hij.le).mp he
  have := Nat.le_of_dvd (by omega) hd
  omega

theorem Window.nil {n : ℕ} {slot : ℤ → α} {lo : ℕ} : Window n slot [] lo :=
  fun _ _ h ↦ absurd h (Nat.not_lt_zero _)

/-- Overwriting the slot after the last message harms no message of the window
as long as the window does not fill the buffer. -/
theorem Window.update {n : ℕ} {slot : ℤ → α} {log : List α} {lo : ℕ}
    (h : Window n slot log lo) (hn : log.length < lo + n) (a : α) :
    Window n (Function.update slot ((log.length % n : ℕ) : ℤ) a) log lo := by
  intro i hlo hi
  have hne : ((i % n : ℕ) : ℤ) ≠ ((log.length % n : ℕ) : ℤ) := by
    exact_mod_cast mod_ne_of_lt hi (by omega)
  rw [Function.update_of_ne hne]
  exact h i hlo hi

theorem Window.append {n : ℕ} {slot : ℤ → α} {log : List α} {lo : ℕ} {a : α}
    (h : Window n slot log lo) (ha : slot ((log.length % n : ℕ) : ℤ) = a) :
    Window n slot (log ++ [a]) lo := by
  intro i hlo hi
  rcases Nat.lt_or_ge i log.length with hl | hl
  · rw [List.getElem_append_left hl]
    exact h i hlo hl
  · have he : i = log.length := by
      simp only [List.length_append, List.length_singleton] at hi
      omega
    subst he
    simpa using ha

theorem Window.advance {n : ℕ} {slot : ℤ → α} {log : List α} {lo lo' : ℕ}
    (h : Window n slot log lo) (hl : lo ≤ lo') : Window n slot log lo' :=
  fun i hi ↦ h i (hl.trans hi)

theorem Window.take_succ {n : ℕ} {slot : ℤ → α} {log : List α} {lo : ℕ}
    (h : Window n slot log lo) (hl : lo < log.length) :
    log.take (lo + 1) = log.take lo ++ [slot ((lo % n : ℕ) : ℤ)] := by
  rw [h lo le_rfl hl, List.take_append_getElem hl]

end Library.BoundedChannel
