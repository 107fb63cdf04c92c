/-!
# Positions on the drawing grid

Where a gate is drawn. Positions never influence what a circuit computes. A coordinate is any
integer here, while a circuit file keeps coordinates of 32 bits with a sign. The two only differ for
gates that are drawn some two thousand million units away from the origin.
-/

namespace LogicCircuit

/-- A point of the drawing. -/
structure Position where
  x : Int := 0
  y : Int := 0
  deriving DecidableEq, Repr, Inhabited

namespace Position

/-- Distance between two lines of the grid. -/
def gridStep : Nat := 20

/-- The nearest grid line to a coordinate; halfway between two lines, the one away from zero. -/
def snap (v : Int) : Int :=
  v.sign * (((v.natAbs + gridStep / 2) / gridStep * gridStep : Nat) : Int)

/-- Snapping moves a coordinate by at most half a step. -/
theorem snap_bounds (v : Int) : v - 10 ≤ snap v ∧ snap v ≤ v + 10 := by
  unfold snap gridStep
  rcases Int.lt_trichotomy v 0 with hneg | rfl | hpos
  · rw [Int.sign_eq_neg_one_of_neg hneg]
    omega
  · decide
  · rw [Int.sign_eq_one_of_pos hpos]
    omega

/-- The nearest crossing of grid lines. -/
def snapped (x y : Int) : Position := { x := snap x, y := snap y }

/-- A snapped coordinate lies on a grid line. -/
theorem gridStep_dvd_snap (v : Int) : (gridStep : Int) ∣ snap v :=
  Int.dvd_mul_of_dvd_right (Int.natCast_dvd_natCast.2 (Nat.dvd_mul_left _ _))

end Position

end LogicCircuit
