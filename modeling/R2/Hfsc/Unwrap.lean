import R2.Hfsc.Horizon

namespace R2

/-- A service curve as the API takes it. -/
structure ScApi where
  m1 : Option Int32
  d : Option Int32
  m2 : Option Int32
deriving DecidableEq

structure CurvesApi where
  rSc : Option ScApi
  uSc : Option ScApi
  fSc : Option ScApi
deriving DecidableEq

/-- `as u64` on an `i32` extends the sign. -/
def asU64 (n : Int32) : Nat := (n.toInt % 2 ^ 64).toNat

def unwrapSc (sc : ScApi) : Sc := ⟨(sc.m1.map asU64).getD 0, (sc.d.map asU64).getD 0, (sc.m2.map asU64).getD 0⟩

def unwrapCurves (curves : CurvesApi) : Curves :=
  ⟨curves.rSc.map unwrapSc, curves.uSc.map unwrapSc, (curves.fSc.map unwrapSc).getD ⟨0, 0, 0⟩⟩

def ScApi.NonNegative (sc : ScApi) : Prop := ∀ n, sc.m1 = some n ∨ sc.d = some n ∨ sc.m2 = some n → 0 ≤ n.toInt

def CurvesApi.NonNegative (curves : CurvesApi) : Prop :=
  ∀ sc, curves.rSc = some sc ∨ curves.uSc = some sc ∨ curves.fSc = some sc → sc.NonNegative

def Curves.Small (curves : Curves) : Prop :=
  (∀ sc ∈ curves.rSc, sc.Small) ∧ (∀ sc ∈ curves.uSc, sc.Small) ∧ curves.fSc.Small

instance (sc : Sc) : Decidable sc.Small := inferInstanceAs (Decidable (_ ∧ _ ∧ _))

instance (curves : Curves) : Decidable curves.Small := inferInstanceAs (Decidable (_ ∧ _ ∧ _))

theorem asU64_lt {n : Int32} (positive : 0 ≤ n.toInt) : asU64 n < 2 ^ 31 := by
  have below : n.toInt < 2 ^ 31 := n.toInt_lt
  unfold asU64
  omega

/-- Every number below `2 ^ 31` is one the API can send. -/
theorem asU64_ofNat {n : Nat} (small : n < 2 ^ 31) : 0 ≤ (Int32.ofNat n).toInt ∧ asU64 (Int32.ofNat n) = n := by
  have value : (Int32.ofNat n).toInt = n := Int32.toInt_ofNat_of_lt small
  unfold asU64
  rw [value]
  omega

theorem ScApi.NonNegative.small {sc : ScApi} (positive : sc.NonNegative) : (unwrapSc sc).Small := by
  have field (n : Option Int32) (own : ∀ m, n = some m → 0 ≤ m.toInt) : (n.map asU64).getD 0 < 2 ^ 31 := by
    cases n with
    | none => decide
    | some m => exact asU64_lt (own m rfl)
  exact ⟨field sc.m1 fun m is => positive m (Or.inl is), field sc.d fun m is => positive m (Or.inr (Or.inl is)),
    field sc.m2 fun m is => positive m (Or.inr (Or.inr is))⟩

theorem unwrapCurves_small {curves : CurvesApi} (positive : curves.NonNegative) : (unwrapCurves curves).Small := by
  refine ⟨fun sc is => ?_, fun sc is => ?_, ?_⟩
  · obtain ⟨api, at_, rfl⟩ := Option.map_eq_some_iff.mp is
    exact (positive api (Or.inl at_)).small
  · obtain ⟨api, at_, rfl⟩ := Option.map_eq_some_iff.mp is
    exact (positive api (Or.inr (Or.inl at_))).small
  · unfold unwrapCurves
    cases at_ : curves.fSc with
    | none => exact ⟨show 0 < 2 ^ 31 by decide, show 0 < 2 ^ 31 by decide, show 0 < 2 ^ 31 by decide⟩
    | some api => exact (positive api (Or.inr (Or.inr at_))).small

def wrapSc (sc : Sc) : ScApi := ⟨some (.ofNat sc.m1), some (.ofNat sc.d), some (.ofNat sc.m2)⟩

theorem unwrapSc_wrapSc {sc : Sc} (small : sc.Small) : (wrapSc sc).NonNegative ∧ unwrapSc (wrapSc sc) = sc := by
  obtain ⟨m1, d, m2⟩ := small
  refine ⟨?_, ?_⟩
  · rintro n (is | is | is)
    · exact Option.some.inj is ▸ (asU64_ofNat m1).1
    · exact Option.some.inj is ▸ (asU64_ofNat d).1
    · exact Option.some.inj is ▸ (asU64_ofNat m2).1
  · simp only [unwrapSc, wrapSc, Option.map_some, Option.getD_some, asU64_ofNat m1, asU64_ofNat d, asU64_ofNat m2]

def wrapCurves (curves : Curves) : CurvesApi :=
  ⟨curves.rSc.map wrapSc, curves.uSc.map wrapSc, some (wrapSc curves.fSc)⟩

theorem unwrapCurves_wrapCurves {curves : Curves} (small : curves.Small) :
    (wrapCurves curves).NonNegative ∧ unwrapCurves (wrapCurves curves) = curves := by
  obtain ⟨rSc, uSc, fSc⟩ := small
  have each (o : Option Sc) (small : ∀ sc ∈ o, sc.Small) : (o.map wrapSc).map unwrapSc = o := by
    cases o with
    | none => rfl
    | some sc => exact congrArg some (unwrapSc_wrapSc (small sc rfl)).2
  refine ⟨?_, ?_⟩
  · rintro api (is | is | is)
    · obtain ⟨sc, at_, rfl⟩ := Option.map_eq_some_iff.mp is
      exact (unwrapSc_wrapSc (rSc sc at_)).1
    · obtain ⟨sc, at_, rfl⟩ := Option.map_eq_some_iff.mp is
      exact (unwrapSc_wrapSc (uSc sc at_)).1
    · exact Option.some.inj is ▸ (unwrapSc_wrapSc fSc).1
  · simp only [unwrapCurves, wrapCurves, each _ rSc, each _ uSc, Option.map_some, Option.getD_some,
      (unwrapSc_wrapSc fSc).2]

/-- The curves that `unwrap_curves` yields from non-negative fields. -/
theorem Curves.small_iff {curves : Curves} :
    curves.Small ↔ ∃ api : CurvesApi, api.NonNegative ∧ unwrapCurves api = curves := by
  constructor
  · intro small
    exact ⟨wrapCurves curves, unwrapCurves_wrapCurves small⟩
  · rintro ⟨api, positive, rfl⟩
    exact unwrapCurves_small positive

end R2
