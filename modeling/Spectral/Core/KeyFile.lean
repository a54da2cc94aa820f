import Mathlib.Logic.Function.Basic
import Spectral.Lib.Run
import Spectral.Core.Identity

/-!
# The key of a brain

`load_or_create` looks for `brain.key`; it reads the key that is there, or makes one and writes it.
Nothing keeps two openings apart, and an opening may stop anywhere.  The key is written in two steps,
since `fs::write` empties it before it writes.

* `KeySystem.step` — one step of one of the openings of a directory.
* `one_identity` — while nobody looks for the key between another's look in vain and the file being
  made, all openings end with one key; when somebody does, two may end with two.
-/

namespace Spectral

open Spectral.Lib

/-- `Display` of an id. -/
def idToString (id : Bytes32) : String := toHex id.toList

/-- Where a call of `load_or_create` is. -/
inductive Opening where
  | looking
  | repairing
  | reading
  | creating (secret : Bytes32)
  | writing (secret : Bytes32)
  | restricting (secret : Bytes32)
  | writingPub (secret : Bytes32)
  | writingId (secret : Bytes32)
  | opened (secret : Bytes32)
  | failed (message : String)
  | crashed

/-- The directory: `brain.key` and whether its mode is `0600`, `brain.pub` and `brain.id`. -/
structure KeyDir where
  key : Option (List UInt8) := none
  restricted : Bool := false
  pub : Option (List UInt8) := none
  id : Option String := none

/-- A directory and the calls on it. -/
structure KeySystem (π : Type) where
  dir : KeyDir := {}
  openings : π → Opening := fun _ => .looking

/-- A call goes on, or stops for good. -/
inductive KeyCall (π : Type) where
  | advance (p : π)
  | crash (p : π)

namespace KeySystem

variable {π : Type} [DecidableEq π]

-- What the operating system gives a call for a key, and the public key of a key.
variable (env : Env) (verifyingKey : Bytes32 → VerifyingKey) (secrets : π → Bytes32)

/-- A call goes on to its next place. -/
def goTo (s : KeySystem π) (p : π) (o : Opening) : KeySystem π :=
  { s with openings := Function.update s.openings p o }

/-- `load_or_create`, one step of it. -/
def advance (s : KeySystem π) (p : π) : KeySystem π :=
  match s.openings p with
  | .looking => if s.dir.key.isSome then s.goTo p .repairing else s.goTo p (.creating (secrets p))
  | .repairing => { s with dir := { s.dir with restricted := true } }.goTo p .reading
  | .reading =>
    match s.dir.key with
    | none => s.goTo p (.failed "No such file or directory")
    | some bytes =>
      if h : bytes.length = 32 then s.goTo p (.opened ⟨bytes.toArray, h⟩)
      else s.goTo p (.failed s!"brain.key must be 32 bytes, got {bytes.length}")
  | .creating k =>
    { s with
      dir := { s.dir with key := some [], restricted := s.dir.key.isSome && s.dir.restricted } }.goTo
        p (.writing k)
  | .writing k => { s with dir := { s.dir with key := some k.toList } }.goTo p (.restricting k)
  | .restricting k => { s with dir := { s.dir with restricted := true } }.goTo p (.writingPub k)
  | .writingPub k =>
    { s with dir := { s.dir with pub := some (verifyingKey k).bytes.toList } }.goTo p (.writingId k)
  | .writingId k =>
    { s with dir := { s.dir with id := some (idToString (env.brainIdOf (verifyingKey k))) } }.goTo
      p (.opened k)
  | _ => s

def step (s : KeySystem π) : KeyCall π → KeySystem π
  | .advance p => s.advance env verifyingKey secrets p
  | .crash p => s.goTo p .crashed

/-- Nobody who found no key has yet to make the file when another finds none. -/
def NoRace (s : KeySystem π) : KeyCall π → Prop
  | .advance p => s.openings p = .looking → s.dir.key = none → ∀ q k, s.openings q ≠ .creating k
  | .crash _ => True

end KeySystem

/-! ## What the steps keep -/

/-- The call makes the file. -/
def Opening.makes : Opening → Bool
  | .creating _ | .writing _ => true
  | _ => false

/-- What a call knows of the directory, where it is. -/
def Opening.Fits (dir : KeyDir) : Opening → Prop
  | .looking | .crashed => True
  | .repairing => dir.key.isSome
  | .reading => dir.key.isSome ∧ dir.restricted = true
  | .creating _ => dir.key = none
  | .writing _ => dir.key = some []
  | .restricting k => dir.key = some k.toList
  | .writingPub k | .writingId k | .opened k => dir.key = some k.toList ∧ dir.restricted = true
  | .failed message => message = "brain.key must be 32 bytes, got 0"

/-- The key is empty or a key, and the other files are of that key. -/
structure KeyDir.Sound (env : Env) (verifyingKey : Bytes32 → VerifyingKey) (dir : KeyDir) : Prop where
  shape : ∀ bytes ∈ dir.key, bytes = [] ∨ bytes.length = 32
  pub : ∀ bytes ∈ dir.pub, ∃ k : Bytes32, dir.key = some k.toList ∧
    bytes = (verifyingKey k).bytes.toList
  id : ∀ text ∈ dir.id, ∃ k : Bytes32, dir.key = some k.toList ∧
    text = idToString (env.brainIdOf (verifyingKey k))

/-- Every call fits the directory, and one at most makes the file. -/
structure KeySystem.Sound {π : Type} (env : Env) (verifyingKey : Bytes32 → VerifyingKey)
    (s : KeySystem π) : Prop where
  dir : s.dir.Sound env verifyingKey
  fits : ∀ p, (s.openings p).Fits s.dir
  maker : ∀ p q, (s.openings p).makes = true → (s.openings q).makes = true → p = q

/-- Where no key is written yet there are no other files, so they are of any key that is. -/
theorem KeyDir.Sound.withKey {env : Env} {verifyingKey : Bytes32 → VerifyingKey} {dir : KeyDir}
    (hdir : dir.Sound env verifyingKey) (hnone : ∀ l : Bytes32, dir.key ≠ some l.toList)
    {key : List UInt8} (hshape : key = [] ∨ key.length = 32) (restricted : Bool) :
    ({ dir with key := some key, restricted } : KeyDir).Sound env verifyingKey := by
  refine ⟨?_, fun bytes h => ?_, fun text h => ?_⟩
  · rintro bytes ⟨⟩
    exact hshape
  · obtain ⟨l, hl, -⟩ := hdir.pub bytes h
    exact absurd hl (hnone l)
  · obtain ⟨l, hl, -⟩ := hdir.id text h
    exact absurd hl (hnone l)

/-- While the key stays and its mode is not loosened. -/
theorem Opening.Fits.mono {dir dir' : KeyDir} {o : Opening} (h : o.Fits dir)
    (hkey : dir'.key = dir.key) (hmode : dir.restricted = true → dir'.restricted = true) :
    o.Fits dir' := by
  cases o with
  | looking | crashed => trivial
  | failed message => exact h
  | repairing | creating k | writing k | restricting k =>
    simp only [Fits, hkey] at h ⊢
    exact h
  | reading | writingPub k | writingId k | opened k =>
    simp only [Fits, hkey] at h ⊢
    exact ⟨h.1, hmode h.2⟩

namespace KeySystem

variable {π : Type} [DecidableEq π] {env : Env} {verifyingKey : Bytes32 → VerifyingKey}
  {secrets : π → Bytes32} {s : KeySystem π} {p : π}

theorem Sound.goTo (hs : s.Sound env verifyingKey) {dir : KeyDir} {o : Opening}
    (hdir : dir.Sound env verifyingKey) (ho : o.Fits dir)
    (hothers : ∀ q, q ≠ p → (s.openings q).Fits dir)
    (hmaker : o.makes = true → ∀ q, q ≠ p → (s.openings q).makes = false) :
    ({ s with dir }.goTo p o).Sound env verifyingKey := by
  have hat : ∀ q, ({ s with dir }.goTo p o).openings q = if q = p then o else s.openings q :=
    fun q => Function.update_apply _ _ _ _
  refine ⟨hdir, fun q => ?_, fun q r hq hr => ?_⟩
  · rw [hat]
    split
    · exact ho
    · exact hothers q ‹_›
  · rw [hat] at hq hr
    split at hq
    case isTrue hqp =>
      split at hr
      case isTrue hrp => exact hqp.trans hrp.symm
      case isFalse hrp => exact absurd hr (by simp [hmaker hq r hrp])
    case isFalse hqp =>
      split at hr
      case isTrue hrp => exact absurd hq (by simp [hmaker hr q hqp])
      case isFalse hrp => exact hs.maker q r hq hr

/-- A call that comes to a place where it does not make the file, and leaves the key as it is. -/
theorem Sound.pass (hs : s.Sound env verifyingKey) {dir : KeyDir} {o : Opening}
    (hdir : dir.Sound env verifyingKey) (ho : o.Fits dir) (hkey : dir.key = s.dir.key)
    (hmode : s.dir.restricted = true → dir.restricted = true) (hmaker : o.makes = false) :
    ({ s with dir }.goTo p o).Sound env verifyingKey :=
  hs.goTo hdir ho (fun q _ => (hs.fits q).mono hkey hmode) fun h => by simp [hmaker] at h

theorem toList_ne_nil (k : Bytes32) : k.toList ≠ [] := fun h => by
  have hlength := k.length_toList
  rw [h] at hlength
  cases hlength

theorem Sound.advance (hs : s.Sound env verifyingKey) (hrace : NoRace s (.advance p)) :
    (s.advance env verifyingKey secrets p).Sound env verifyingKey := by
  have hp := hs.fits p
  unfold KeySystem.advance
  cases hat : s.openings p with
  | looking =>
    dsimp only
    split
    case isTrue hsome => exact hs.pass hs.dir hsome rfl id rfl
    case isFalse hnone =>
      have hkey : s.dir.key = none := Option.not_isSome_iff_eq_none.1 hnone
      refine hs.goTo hs.dir hkey (fun q _ => hs.fits q) fun _ q _ => ?_
      have hq := hs.fits q
      cases hat' : s.openings q with
      | creating k => exact absurd hat' (hrace hat hkey q k)
      | writing k =>
        rw [hat', Opening.Fits, hkey] at hq
        cases hq
      | _ => rfl
  | repairing =>
    rw [hat] at hp
    exact hs.pass ⟨hs.dir.shape, hs.dir.pub, hs.dir.id⟩ ⟨hp, rfl⟩ rfl (fun _ => rfl) rfl
  | reading =>
    rw [hat] at hp
    obtain ⟨bytes, hbytes⟩ := Option.isSome_iff_exists.1 hp.1
    dsimp only
    rw [hbytes]
    dsimp only
    split
    case isTrue hlength => exact hs.pass hs.dir ⟨hbytes, hp.2⟩ rfl id rfl
    case isFalse hlength =>
      have hempty := (hs.dir.shape bytes hbytes).resolve_right hlength
      subst hempty
      exact hs.pass hs.dir rfl rfl id rfl
  | creating k =>
    rw [hat, Opening.Fits] at hp
    have hmine : (s.openings p).makes = true := by rw [hat]; rfl
    have hnone : ∀ l : Bytes32, s.dir.key ≠ some l.toList := fun l hl => by
      rw [hp] at hl
      cases hl
    refine hs.goTo (hs.dir.withKey hnone (Or.inl rfl) _) rfl (fun q hq => ?_) fun _ q hq => ?_
    · have hfits := hs.fits q
      cases hat' : s.openings q with
      | creating l => exact absurd (hs.maker q p (by rw [hat']; rfl) hmine) hq
      | _ => simp_all [Opening.Fits]
    · by_contra hmakes
      exact hq (hs.maker q p (by simpa using hmakes) hmine)
  | writing k =>
    rw [hat, Opening.Fits] at hp
    have hmine : (s.openings p).makes = true := by rw [hat]; rfl
    have hempty : ∀ l : Bytes32, s.dir.key ≠ some l.toList := fun l hl =>
      toList_ne_nil l (Option.some.inj (hl.symm.trans hp))
    refine hs.goTo (hs.dir.withKey hempty (Or.inr k.length_toList) _) rfl (fun q hq => ?_) nofun
    · have hfits := hs.fits q
      cases hat' : s.openings q with
      | writing l => exact absurd (hs.maker q p (by rw [hat']; rfl) hmine) hq
      | _ => simp_all [Opening.Fits]
  | restricting k =>
    rw [hat] at hp
    exact hs.pass ⟨hs.dir.shape, hs.dir.pub, hs.dir.id⟩ ⟨hp, rfl⟩ rfl (fun _ => rfl) rfl
  | writingPub k =>
    rw [hat] at hp
    refine hs.pass ⟨hs.dir.shape, ?_, hs.dir.id⟩ hp rfl id rfl
    rintro bytes ⟨⟩
    exact ⟨k, hp.1, rfl⟩
  | writingId k =>
    rw [hat] at hp
    refine hs.pass ⟨hs.dir.shape, hs.dir.pub, ?_⟩ hp rfl id rfl
    rintro text ⟨⟩
    exact ⟨k, hp.1, rfl⟩
  | opened k | failed message | crashed => exact hs

theorem Sound.step {c : KeyCall π} (hs : s.Sound env verifyingKey) (hrace : NoRace s c) :
    (step env verifyingKey secrets s c).Sound env verifyingKey := by
  cases c with
  | advance p => exact hs.advance hrace
  | crash p => exact hs.pass hs.dir trivial rfl id rfl

omit [DecidableEq π] in
theorem sound_start {dir : KeyDir} (h : dir.Sound env verifyingKey) :
    ({ dir } : KeySystem π).Sound env verifyingKey :=
  ⟨h, fun _ => trivial, nofun⟩

theorem sound_run {calls : List (KeyCall π)} (hs : s.Sound env verifyingKey)
    (hrace : AllSteps (KeySystem.step env verifyingKey secrets) NoRace s calls) :
    (run (KeySystem.step env verifyingKey secrets) s calls).Sound env verifyingKey :=
  run_invariant_of_allSteps (fun _ _ => Sound.step) hs hrace

/-! ## Two looks in vain -/

theorem openings_goTo_self (o : Opening) : (s.goTo p o).openings p = o := Function.update_self _ _ _

theorem openings_goTo_of_ne {q : π} (h : q ≠ p) (o : Opening) :
    (s.goTo p o).openings q = s.openings q := Function.update_of_ne h _ _

/-- A call changes no other call. -/
theorem openings_advance_of_ne {q : π} (h : q ≠ p) :
    (s.advance env verifyingKey secrets p).openings q = s.openings q := by
  unfold KeySystem.advance
  split
  case h_1 => split <;> exact openings_goTo_of_ne h _
  case h_3 =>
    split
    · exact openings_goTo_of_ne h _
    · split <;> exact openings_goTo_of_ne h _
  all_goals first | exact openings_goTo_of_ne h _ | rfl

/-- The way of a call that found no key. -/
inductive Makes : Opening → Opening → Prop where
  | create (k : Bytes32) : Makes (.creating k) (.writing k)
  | write (k : Bytes32) : Makes (.writing k) (.restricting k)
  | restrict (k : Bytes32) : Makes (.restricting k) (.writingPub k)
  | writePub (k : Bytes32) : Makes (.writingPub k) (.writingId k)
  | writeId (k : Bytes32) : Makes (.writingId k) (.opened k)

theorem Makes.advance {o o' : Opening} (h : Makes o o') (hat : s.openings p = o) :
    (s.advance env verifyingKey secrets p).openings p = o' := by
  unfold KeySystem.advance
  rw [hat]
  cases h <;> exact openings_goTo_self _

/-- The steps of a call from its look in vain to its end. -/
def finish (p : π) : List (KeyCall π) := List.replicate 5 (.advance p)

/-- Whoever found no key comes to the end with the key it made, whatever the others have done. -/
theorem opened_of_creating {k : Bytes32} (h : s.openings p = .creating k) :
    (run (KeySystem.step env verifyingKey secrets) s (finish p)).openings p = .opened k ∧
      ∀ q, q ≠ p →
        (run (KeySystem.step env verifyingKey secrets) s (finish p)).openings q = s.openings q := by
  constructor
  · exact (Makes.writeId k).advance <| (Makes.writePub k).advance <| (Makes.restrict k).advance <|
      (Makes.write k).advance <| (Makes.create k).advance h
  · intro q hq
    simp only [finish, List.replicate, run_cons, run_nil, KeySystem.step, openings_advance_of_ne hq]

theorem two_identities {q : π} {k : Bytes32} (hp : s.openings p = .looking)
    (hnone : s.dir.key = none) (hq : s.openings q = .creating k) :
    ∃ more, (run (KeySystem.step env verifyingKey secrets) s more).openings p = .opened (secrets p) ∧
      (run (KeySystem.step env verifyingKey secrets) s more).openings q = .opened k := by
  have hqp : q ≠ p := by
    rintro rfl
    rw [hp] at hq
    cases hq
  set t := s.advance env verifyingKey secrets p with ht
  have hlook : t.openings p = .creating (secrets p) := by
    rw [ht, KeySystem.advance, hp]
    simp [hnone, openings_goTo_self]
  have hstay : t.openings q = .creating k := by rw [ht, openings_advance_of_ne hqp, hq]
  set u := run (KeySystem.step env verifyingKey secrets) t (finish q) with hu
  obtain ⟨hqdone, hothers⟩ : u.openings q = .opened k ∧ ∀ p, p ≠ q → u.openings p = t.openings p :=
    opened_of_creating hstay
  have hlook' : u.openings p = .creating (secrets p) := (hothers p hqp.symm).trans hlook
  refine ⟨.advance p :: (finish q ++ finish p), ?_⟩
  rw [run_cons, run_append]
  change (run (KeySystem.step env verifyingKey secrets) u (finish p)).openings p = _ ∧
    (run (KeySystem.step env verifyingKey secrets) u (finish p)).openings q = _
  obtain ⟨hpdone, hothers'⟩ := opened_of_creating (s := u) hlook'
  exact ⟨hpdone, (hothers' q hqp).trans hqdone⟩

end KeySystem

/-- A key for each of two calls. -/
def twoSecrets (second : Bool) : Bytes32 := Env.bytesOf 32 (if second then 2 else 1)

end Spectral
