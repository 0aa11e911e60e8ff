import Mathlib

/-!
# Attempts that are throttled

A counter with a block: after `limit` attempts the next one is admitted `lockout` later at the
earliest, and then the counter starts again. The counter has no decay, so that what it says about a
window of time follows only from the whole sequence: `Throttle.window_le` bounds the attempts that
are admitted in any window as long as the block, if their times do not go back.
-/

structure Throttle where
  attempts : Nat
  blockedUntil : Option Nat

namespace Throttle

variable (limit lockout : Nat)

def Blocked (s : Throttle) (t : Nat) : Prop := ∃ b ∈ s.blockedUntil, t < b

/-- The counter with one more attempt. -/
def counted (s : Throttle) : Nat := (if s.blockedUntil.isSome then 0 else s.attempts) + 1

/-- What an attempt leaves that is admitted. -/
def next (s : Throttle) (t : Nat) : Throttle where
  attempts := s.counted
  blockedUntil := if limit ≤ s.counted then some (t + lockout) else none

/-- Attempts at these times are admitted one after the other. -/
def Admits : Throttle → List Nat → Prop
  | _, [] => True
  | s, t :: ts => ¬s.Blocked t ∧ Admits (s.next limit lockout t) ts

/-- How many of the times are in the window that starts at `w`. -/
def inWindow (w : Nat) (ts : List Nat) : Nat := ts.countP fun t => w ≤ t ∧ t < w + lockout

variable {limit lockout}

theorem inWindow_eq_zero (h : ∀ t ∈ ts, w + lockout ≤ t) : inWindow lockout w ts = 0 := by
  refine List.countP_eq_zero.mpr fun t ht => ?_
  simpa using fun _ => h t ht

theorem inWindow_cons_le (t : Nat) (ts : List Nat) :
    inWindow lockout w (t :: ts) ≤ inWindow lockout w ts + 1 := by
  unfold inWindow
  rw [List.countP_cons]
  split <;> omega

theorem inWindow_cons_of_lt (h : t < w) (ts : List Nat) :
    inWindow lockout w (t :: ts) = inWindow lockout w ts :=
  List.countP_cons_of_neg (by simp; omega)

/-- How many attempts can still be admitted in the window that starts at `w`, when it has begun. -/
def remaining (limit lockout w : Nat) (s : Throttle) : Nat :=
  match s.blockedUntil with
  | some b => if w + lockout ≤ b then 0 else limit
  | none => max 1 (limit - s.attempts)

theorem remaining_le (hlimit : 1 ≤ limit) (s : Throttle) : remaining limit lockout w s ≤ limit := by
  unfold remaining
  split
  · split <;> omega
  · omega

theorem remaining_next (hlimit : 1 ≤ limit) (hw : w ≤ t) (ht : t < w + lockout)
    (hs : ¬Blocked s t) :
    remaining limit lockout w (s.next limit lockout t) + 1 ≤ remaining limit lockout w s := by
  have hend : w + lockout ≤ t + lockout := by omega
  obtain ⟨attempts, blocked⟩ := s
  cases blocked with
  | some b =>
    have hb : ¬w + lockout ≤ b := fun h => hs ⟨b, rfl, by omega⟩
    by_cases hone : limit ≤ 1
    · simp [remaining, next, counted, hone, hend, hb, hlimit]
    · simp [remaining, next, counted, hone, hb]
      omega
  | none =>
    by_cases hmore : limit ≤ attempts + 1
    · simp [remaining, next, counted, hmore, hend]
    · simp [remaining, next, counted, hmore]
      omega

private theorem window_le_remaining (hlimit : 1 ≤ limit) (hts : ts.Pairwise (· ≤ ·))
    (hw : ∀ t ∈ ts, w ≤ t) (h : Admits limit lockout s ts) :
    inWindow lockout w ts ≤ remaining limit lockout w s := by
  induction ts generalizing s with
  | nil => exact Nat.zero_le _
  | cons t ts ih =>
    obtain ⟨hle, hts⟩ := List.pairwise_cons.mp hts
    obtain ⟨hwt, hw⟩ := List.forall_mem_cons.mp hw
    by_cases ht : t < w + lockout
    · calc inWindow lockout w (t :: ts)
        _ ≤ inWindow lockout w ts + 1 := inWindow_cons_le t ts
        _ ≤ remaining limit lockout w (s.next limit lockout t) + 1 :=
          Nat.add_le_add_right (ih hts hw h.2) 1
        _ ≤ remaining limit lockout w s := remaining_next hlimit hwt ht h.1
    · -- from here on the window is over
      have hover : ∀ u ∈ t :: ts, w + lockout ≤ u :=
        List.forall_mem_cons.mpr ⟨by omega, fun u hu => by have := hle u hu; omega⟩
      rw [inWindow_eq_zero hover]
      exact Nat.zero_le _

/-- No window as long as the block has more than `limit` admitted attempts. -/
theorem window_le (hlimit : 1 ≤ limit) (hts : ts.Pairwise (· ≤ ·))
    (h : Admits limit lockout s ts) (w : Nat) : inWindow lockout w ts ≤ limit := by
  induction ts generalizing s with
  | nil => exact Nat.zero_le _
  | cons t ts ih =>
    have hpair := List.pairwise_cons.mp hts
    by_cases ht : t < w
    · rw [inWindow_cons_of_lt ht]
      exact ih hpair.2 h.2
    · have hw : ∀ u ∈ t :: ts, w ≤ u :=
        List.forall_mem_cons.mpr ⟨by omega, fun u hu => by have := hpair.1 u hu; omega⟩
      exact Nat.le_trans (window_le_remaining hlimit hts hw h) (remaining_le hlimit s)

end Throttle
