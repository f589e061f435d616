namespace WaccArm

namespace Word

/-- The signed 32-bit number that differs from `n` by a multiple of 2 ^ 32. -/
def signed (n : Int) : Int := n.bmod 0x100000000

theorem signed_eq_self {n : Int} (hlo : -0x80000000 ≤ n) (hhi : n < 0x80000000) : signed n = n := by
  rw [signed, Int.bmod_def]
  split <;> omega

end Word

end WaccArm
