import Unification.Keys

namespace Unification

/-- How keys are numbered: the index of a key, and the key of an index. -/
structure Numbering (κ : Type) where
  index : κ → Nat
  ofIndex : Nat → κ

namespace Numbering

/-- Each word stands for itself. -/
def direct : Numbering UInt32 where
  index := UInt32.toNat
  ofIndex := UInt32.ofNat

/-- The words are handed out from the largest downward. -/
def reversed : Numbering UInt32 where
  index key := (0xFFFFFFFF - key).toNat
  ofIndex index := 0xFFFFFFFF - UInt32.ofNat index

/-- The odd words are handed out. An even word stands for the same index as the
    odd one that follows it. -/
def odd : Numbering UInt32 where
  index key := (key >>> 1).toNat
  ofIndex index := 2 * UInt32.ofNat index + 1

theorem direct_index_ofIndex {index : Nat} (hindex : index < UInt32.size) :
    direct.index (direct.ofIndex index) = index := by
  simp only [direct, UInt32.toNat_ofNat', UInt32.size] at hindex ⊢
  omega

theorem reversed_index_ofIndex {index : Nat} (hindex : index < UInt32.size) :
    reversed.index (reversed.ofIndex index) = index := by
  simp only [reversed, UInt32.toNat_sub, UInt32.toNat_ofNat', UInt32.reduceToNat,
    UInt32.size] at hindex ⊢
  omega

theorem odd_index_ofIndex {index : Nat} (hindex : index < UInt32.size / 2) :
    odd.index (odd.ofIndex index) = index := by
  simp only [odd, UInt32.toNat_shiftRight, UInt32.toNat_add, UInt32.toNat_mul,
    UInt32.toNat_ofNat', UInt32.reduceToNat, Nat.shiftRight_eq_div_pow, Nat.reduceMod, Nat.pow_one,
    UInt32.size] at hindex ⊢
  omega

end Numbering

/-- The keys of a numbering, for values of a payload. -/
def KeyScheme.of {κ α ε : Type} (payload : Payload α ε) (numbering : Numbering κ) (tag : String)
    (order : κ → α → κ → α → Option (κ × κ)) : KeyScheme κ α ε :=
  { payload with tag, order, index := numbering.index, ofIndex := numbering.ofIndex }

end Unification
