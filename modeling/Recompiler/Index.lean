/-!
Places in tables of fixed size are numbers below the size. Tables are not empty, so numerals and
remainders name places.
-/
namespace Recompiler

/-- Argument positions of an instruction. -/
instance threePlaces : @NeZero Nat Zero.ofOfNat0 3 := ⟨by decide⟩

/-- Registers of a machine that numbers them with four bits. -/
instance sixteenPlaces : @NeZero Nat Zero.ofOfNat0 16 := ⟨by decide⟩

end Recompiler
