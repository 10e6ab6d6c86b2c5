/-!
# Luby — the sequence 1, 1, 2, 1, 1, 2, 4, 1, 1, 2, ...

Terms are counted from one. Up to term `2 ^ (k + 1) - 1` the sequence is its terms up to
`2 ^ k - 1`, twice, and then `2 ^ k`.
-/

namespace SatSearch

/-- The term with the given number. The last term of a block is a power of two; every other term
repeats one of the block before. -/
def luby (i : Nat) : Nat :=
  let half := 1 <<< i.log2
  if i + 1 = 2 * half then half
  else if h : i < 2 then half
  else luby (i + 1 - half)
termination_by i
decreasing_by
  have hlog : 1 ≤ i.log2 := (Nat.le_log2 (by omega)).2 (by omega)
  have hpow : 2 ^ 1 ≤ 2 ^ i.log2 := Nat.pow_le_pow_right (by omega) hlog
  have hle : 2 ^ i.log2 ≤ i := Nat.log2_self_le (by omega)
  omega

end SatSearch
