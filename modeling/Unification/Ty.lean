namespace Unification

/-- A type variable. Variables are numbered in the order in which they are made. -/
structure TypeVar where
  id : Nat
  deriving DecidableEq, Ord

/-- The types that inference works on. -/
inductive Ty where
  | int
  | float
  | string
  | qubit
  | angle
  | duration
  | enum (name : String)
  | var (var : TypeVar)
  | fn (params : List Ty) (ret : Ty)
  | struct (fields : List Ty)
  | union (variants : List Ty)

namespace Ty

def isFn : Ty → Bool
  | fn .. => true
  | _ => false

mutual

/-- Whether two types have the same structure. Variables are compared by their
    numbers; what they are bound to plays no role. -/
def same : Ty → Ty → Bool
  | int, int | float, float | string, string => true
  | qubit, qubit | angle, angle | duration, duration => true
  | enum a, enum b => a == b
  | var a, var b => a == b
  | fn params ret, fn params' ret' => sameAll params params' && same ret ret'
  | struct fields, struct fields' => sameAll fields fields'
  | union variants, union variants' => sameAll variants variants'
  | _, _ => false

def sameAll : List Ty → List Ty → Bool
  | [], [] => true
  | t :: ts, u :: us => same t u && sameAll ts us
  | _, _ => false

end

mutual

theorem same_self : ∀ t : Ty, same t t = true
  | int | float | string | qubit | angle | duration => rfl
  | enum _ | var _ => by simp [same]
  | fn params ret => by simp [same, sameAll_self params, same_self ret]
  | struct fields => by simp [same, sameAll_self fields]
  | union variants => by simp [same, sameAll_self variants]

theorem sameAll_self : ∀ ts : List Ty, sameAll ts ts = true
  | [] => rfl
  | t :: ts => by simp [sameAll, same_self t, sameAll_self ts]

end

mutual

theorem eq_of_same : ∀ t u : Ty, same t u = true → t = u
  | int, u, h | float, u, h | string, u, h | qubit, u, h | angle, u, h | duration, u, h => by
    cases u <;> simp_all [same]
  | enum a, u, h => by
    cases u <;> simp [same] at h
    rw [h]
  | var a, u, h => by
    cases u <;> simp [same] at h
    rw [h]
  | fn params ret, u, h => by
    cases u <;> simp [same] at h
    rw [eq_of_sameAll _ _ h.1, eq_of_same _ _ h.2]
  | struct fields, u, h => by
    cases u <;> simp [same] at h
    rw [eq_of_sameAll _ _ h]
  | union variants, u, h => by
    cases u <;> simp [same] at h
    rw [eq_of_sameAll _ _ h]

theorem eq_of_sameAll : ∀ ts us : List Ty, sameAll ts us = true → ts = us
  | [], us, h => by
    cases us with
    | nil => rfl
    | cons u us => simp [sameAll] at h
  | t :: ts, us, h => by
    cases us with
    | nil => simp [sameAll] at h
    | cons u us =>
      simp only [sameAll, Bool.and_eq_true] at h
      rw [eq_of_same _ _ h.1, eq_of_sameAll _ _ h.2]

end

theorem same_iff {t u : Ty} : same t u = true ↔ t = u :=
  ⟨eq_of_same t u, fun h => h ▸ same_self t⟩

instance : DecidableEq Ty := fun _ _ => decidable_of_iff _ same_iff

end Ty

end Unification
