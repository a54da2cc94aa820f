import Mathlib.Order.Lattice
import Mathlib.Order.MinMax

/-!
# Validity intervals

A span is the interval `[start, stop)` in which something is valid; without a stop it is open.

* `Holds` — the span contains an instant.
* `Meets` — two spans have an instant in common: then the later of the two starts is one
  (`meets_iff_exists`).
-/

namespace Spectral.Lib

/-- A half-open interval, possibly without an end. -/
structure Span (κ : Type) where
  start : κ
  stop : Option κ := none
  deriving DecidableEq

namespace Span

variable {κ : Type} [LinearOrder κ]

/-- The span contains the instant. -/
def Holds (s : Span κ) (x : κ) : Prop := s.start ≤ x ∧ ∀ stop, s.stop = some stop → x < stop

/-- Both spans contain the later of their starts. -/
def Meets (s s' : Span κ) : Prop :=
  s.Holds (max s.start s'.start) ∧ s'.Holds (max s.start s'.start)

variable {s s' t t' : Span κ}

theorem Meets.symm (h : s.Meets s') : s'.Meets s := by
  unfold Meets
  rw [max_comm]
  exact ⟨h.2, h.1⟩

/-- A span that contains an instant contains every earlier one from its start on. -/
theorem Holds.of_le {x y : κ} (h : s.Holds x) (hstart : s.start ≤ y) (hle : y ≤ x) : s.Holds y :=
  ⟨hstart, fun stop hstop => lt_of_le_of_lt hle (h.2 stop hstop)⟩

theorem meets_iff_exists : s.Meets s' ↔ ∃ x, s.Holds x ∧ s'.Holds x := by
  constructor
  · exact fun h => ⟨_, h.1, h.2⟩
  · rintro ⟨x, h, h'⟩
    have hle : max s.start s'.start ≤ x := max_le h.1 h'.1
    exact ⟨h.of_le (le_max_left _ _) hle, h'.of_le (le_max_right _ _) hle⟩

/-- Spans that are longer meet as well. -/
theorem Meets.mono (h : s.Meets s') (hs : ∀ x, s.Holds x → t.Holds x)
    (hs' : ∀ x, s'.Holds x → t'.Holds x) : t.Meets t' := by
  obtain ⟨x, hx, hx'⟩ := meets_iff_exists.1 h
  exact meets_iff_exists.2 ⟨x, hs x hx, hs' x hx'⟩

/-- Two open spans meet. -/
theorem meets_of_open (hs : s.stop = none) (hs' : s'.stop = none) : s.Meets s' :=
  ⟨⟨le_max_left _ _, by simp [hs]⟩, ⟨le_max_right _ _, by simp [hs']⟩⟩

/-- A span that ended meets an open one exactly when it lasted past the later start. -/
theorem meets_open_iff {stop : κ} (hs : s.stop = some stop) (hs' : s'.stop = none) :
    s.Meets s' ↔ max s.start s'.start < stop := by
  simp [Meets, Holds, hs, hs']

/-- A span that ends where the other one starts, or earlier, does not meet it. -/
theorem not_meets_of_stop_le {stop : κ} (hs : s.stop = some stop) (h : stop ≤ s'.start) :
    ¬ s.Meets s' := by
  intro hmeets
  have hlt := hmeets.1.2 stop hs
  exact absurd (lt_of_lt_of_le hlt h) (not_lt.2 (le_max_right _ _))

end Span

end Spectral.Lib
