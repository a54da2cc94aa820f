import Spectral.Lib.Threads

/-!
# A derived set that calls keep

One set is derived from another: an index from the records it is of, a replica from its source.
A call changes the records in one step and the index in a later one, so the two differ while calls
are under way.  `Reconciled` says that the calls account for the difference: what the index lacks
some call is still to add, and what it has too much some call is still to drop.

A step moves one call on.  The rules say what is asked of each kind of step: it changes neither set
(`Reconciled.quiet`), the records gain or lose (`grow`, `shrink`), the index gains or loses (`mark`,
`unmark`).  The last two, and a loss of the records, ask something of the other calls.
-/

namespace Spectral.Lib

variable {τ α : Type*}

/-- The calls account for what the index lacks and for what it has too much. -/
structure Reconciled (adds drops : τ → α → Prop) (live derived : α → Prop) (calls : List τ) :
    Prop where
  missing : ∀ x, live x → derived x ∨ ∃ c ∈ calls, adds c x
  extra : ∀ x, derived x → live x ∨ ∃ c ∈ calls, drops c x

namespace Reconciled

variable {adds drops : τ → α → Prop} {live live' derived derived' : α → Prop} {calls : List τ}
  {c c' : τ} {i : ℕ} {a : α} {P : α → Prop}

/-- Without a difference there is nothing to account for. -/
theorem of_iff (h : ∀ x, live x ↔ derived x) : Reconciled adds drops live derived calls where
  missing x hx := Or.inl ((h x).1 hx)
  extra x hx := Or.inl ((h x).2 hx)

/-- **At rest** there is no difference. -/
theorem live_iff_derived (h : Reconciled adds drops live derived calls)
    (hidle : ∀ c ∈ calls, ∀ x, ¬ adds c x ∧ ¬ drops c x) (x : α) : live x ↔ derived x := by
  constructor
  · intro hx
    rcases h.missing x hx with hderived | ⟨c, hc, hadds⟩
    · exact hderived
    · exact absurd hadds (hidle c hc x).1
  · intro hx
    rcases h.extra x hx with hlive | ⟨c, hc, hdrops⟩
    · exact hlive
    · exact absurd hdrops (hidle c hc x).2

/-- A call starts. -/
theorem concat (h : Reconciled adds drops live derived calls) (c : τ) :
    Reconciled adds drops live derived (calls ++ [c]) where
  missing x hx := (h.missing x hx).imp_right fun ⟨c', hc', h⟩ => ⟨c', List.mem_append_left _ hc', h⟩
  extra x hx := (h.extra x hx).imp_right fun ⟨c', hc', h⟩ => ⟨c', List.mem_append_left _ hc', h⟩

/-- A call moves on: it accounts for an element, or another one does. -/
theorem of_modify (hi : calls[i]? = some c)
    (hmissing : ∀ x, live x → derived x ∨ adds c' x ∨ ∃ o ∈ calls.eraseIdx i, adds o x)
    (hextra : ∀ x, derived x → live x ∨ drops c' x ∨ ∃ o ∈ calls.eraseIdx i, drops o x) :
    Reconciled adds drops live derived (calls.modify i fun _ => c') where
  missing x hx := by
    rw [exists_mem_modify_iff hi]
    exact hmissing x hx
  extra x hx := by
    rw [exists_mem_modify_iff hi]
    exact hextra x hx

/-- What is missing, seen from one call. -/
theorem missing_at (h : Reconciled adds drops live derived calls) (hi : calls[i]? = some c) {x : α}
    (hx : live x) : derived x ∨ adds c x ∨ ∃ o ∈ calls.eraseIdx i, adds o x :=
  (h.missing x hx).imp_right (exists_mem_iff_at hi).1

/-- What there is too much, seen from one call. -/
theorem extra_at (h : Reconciled adds drops live derived calls) (hi : calls[i]? = some c) {x : α}
    (hx : derived x) : live x ∨ drops c x ∨ ∃ o ∈ calls.eraseIdx i, drops o x :=
  (h.extra x hx).imp_right (exists_mem_iff_at hi).1

/-- The records lose some elements: the call drops those the index has, or another one does. -/
theorem shrink (h : Reconciled adds drops live derived calls) (hi : calls[i]? = some c)
    (hlive : ∀ x, live' x → live x) (hderived : ∀ x, derived' x ↔ derived x)
    (hgone : ∀ x, live x → ¬ live' x → derived x →
      drops c' x ∨ ∃ o ∈ calls.eraseIdx i, drops o x)
    (hadds : ∀ x, live' x → adds c x → adds c' x) (hdrops : ∀ x, drops c x → drops c' x) :
    Reconciled adds drops live' derived' (calls.modify i fun _ => c') := by
  refine of_modify hi (fun x hx => ?_) fun x hx => ?_
  · rw [hderived]
    exact (h.missing_at hi (hlive x hx)).imp_right (Or.imp_left (hadds x hx))
  · rw [hderived] at hx
    by_cases hx' : live' x
    · exact Or.inl hx'
    · rcases h.extra_at hi hx with hold | hown | hother
      · exact Or.inr (hgone x hold hx' hx)
      · exact Or.inr (Or.inl (hdrops x hown))
      · exact Or.inr (Or.inr hother)

/-- Neither set changes. -/
theorem quiet (h : Reconciled adds drops live derived calls) (hi : calls[i]? = some c)
    (hlive : ∀ x, live' x ↔ live x) (hderived : ∀ x, derived' x ↔ derived x)
    (hadds : ∀ x, live' x → adds c x → adds c' x) (hdrops : ∀ x, drops c x → drops c' x) :
    Reconciled adds drops live' derived' (calls.modify i fun _ => c') :=
  h.shrink hi (fun x hx => (hlive x).1 hx) hderived (fun x hx hgone => absurd ((hlive x).2 hx) hgone)
    hadds hdrops

/-- The records gain an element, which the call is to add. -/
theorem grow (h : Reconciled adds drops live derived calls) (hi : calls[i]? = some c)
    (hlive : ∀ x, live' x → live x ∨ x = a) (hkept : ∀ x, live x → live' x)
    (hderived : ∀ x, derived' x ↔ derived x) (ha : adds c' a) (hadds : ∀ x, adds c x → adds c' x)
    (hdrops : ∀ x, drops c x → drops c' x) :
    Reconciled adds drops live' derived' (calls.modify i fun _ => c') := by
  refine of_modify hi (fun x hx => ?_) fun x hx => ?_
  · rw [hderived]
    rcases hlive x hx with hx | rfl
    · exact (h.missing_at hi hx).imp_right (Or.imp_left (hadds x))
    · exact Or.inr (Or.inl ha)
  · rw [hderived] at hx
    exact (h.extra_at hi hx).imp (hkept x) (Or.imp_left (hdrops x))

/-- The index gains an element: it is a record, or there already, or another call drops it. -/
theorem mark (h : Reconciled adds drops live derived calls) (hi : calls[i]? = some c)
    (hlive : ∀ x, live' x ↔ live x) (hderived : ∀ x, derived' x ↔ derived x ∨ x = a)
    (ha : live a ∨ derived a ∨ ∃ o ∈ calls.eraseIdx i, drops o a)
    (hadds : ∀ x, adds c x → x = a ∨ adds c' x) (hdrops : ∀ x, drops c x → drops c' x) :
    Reconciled adds drops live' derived' (calls.modify i fun _ => c') := by
  have hold : ∀ x, derived x → live x ∨ drops c' x ∨ ∃ o ∈ calls.eraseIdx i, drops o x :=
    fun x hx => (h.extra_at hi hx).imp_right (Or.imp_left (hdrops x))
  refine of_modify hi (fun x hx => ?_) fun x hx => ?_
  · rw [hlive] at hx
    rw [hderived]
    rcases h.missing_at hi hx with hx | hown | hother
    · exact Or.inl (Or.inl hx)
    · exact (hadds x hown).imp Or.inr Or.inl
    · exact Or.inr (Or.inr hother)
  · rw [hlive]
    rcases (hderived x).1 hx with hx | rfl
    · exact hold x hx
    · rcases ha with hlive | hderived | hother
      · exact Or.inl hlive
      · exact hold x hderived
      · exact Or.inr (Or.inr hother)

/-- The index loses some elements: those that are records another call is to add. -/
theorem unmark (h : Reconciled adds drops live derived calls) (hi : calls[i]? = some c)
    (hlive : ∀ x, live' x ↔ live x) (hderived : ∀ x, derived' x ↔ derived x ∧ ¬ P x)
    (hothers : ∀ x, live x → P x → ∃ o ∈ calls.eraseIdx i, adds o x)
    (hadds : ∀ x, adds c x → adds c' x) (hdrops : ∀ x, drops c x → drops c' x ∨ P x) :
    Reconciled adds drops live' derived' (calls.modify i fun _ => c') := by
  refine of_modify hi (fun x hx => ?_) fun x hx => ?_
  · rw [hlive] at hx
    rw [hderived]
    by_cases hP : P x
    · exact Or.inr (Or.inr (hothers x hx hP))
    · exact (h.missing_at hi hx).imp (fun hx => ⟨hx, hP⟩) (Or.imp_left (hadds x))
  · obtain ⟨hx, hP⟩ := (hderived x).1 hx
    rw [hlive]
    rcases h.extra_at hi hx with hx | hown | hother
    · exact Or.inl hx
    · exact Or.inr (Or.inl ((hdrops x hown).resolve_right hP))
    · exact Or.inr (Or.inr hother)

end Reconciled

end Spectral.Lib
