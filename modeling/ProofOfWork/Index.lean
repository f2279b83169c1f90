/-!
# ProofOfWork.Index — numerals of small index types

A numeral of type `Fin n` rests on `n` being nonzero.  That is said once for each size in use, so
that such a numeral is one and the same term everywhere.
-/

namespace ProofOfWork

instance neZero4 : @NeZero Nat Zero.ofOfNat0 4 := ⟨by decide⟩

instance neZero8 : @NeZero Nat Zero.ofOfNat0 8 := ⟨by decide⟩

instance neZero12 : @NeZero Nat Zero.ofOfNat0 12 := ⟨by decide⟩

instance neZero16 : @NeZero Nat Zero.ofOfNat0 16 := ⟨by decide⟩

instance neZero32 : @NeZero Nat Zero.ofOfNat0 32 := ⟨by decide⟩

end ProofOfWork
