import Mathlib.Algebra.Group.Nat.Even
import Mathlib.Algebra.Group.Basic

/-!
# Right-to-left binary exponentiation

The loop

    for (; y; y >>= 1) { if (y & 1) acc = mul(acc, base); base = mul(base, base); }

computes `acc * base ^ y` whenever `mul` is a product read through some representation `f`
(`IsMulHom`): a product modulo `m` read in `ZMod m`, a wrapped product read as a residue. This
file is independent of the representation:

* `step` is one turn of the loop and `step_spec` its invariant: `acc * base ^ y` is the same
  after the turn with `y / 2` bits left;
* `loop` is the whole loop, and `loop_spec` the invariant carried to its end;
* `loop_mem`: if `mul` takes values of a set `Q` into `P ⊆ Q`, the accumulator ends in `P` or
  is the one it started with (the loop may never multiply into it).
-/

namespace BinaryPow

variable {α M : Type*} [CommMonoid M]

/-- One turn of the loop on the low bit of `y`. -/
def step (mul : α → α → α) (y : ℕ) (acc base : α) : α × α :=
  (if y % 2 = 1 then mul acc base else acc, mul base base)

/-- `mul` is the product of `M` read through `f`. -/
def IsMulHom (f : α → M) (mul : α → α → α) : Prop := ∀ a b, f (mul a b) = f a * f b

variable {f : α → M} {mul : α → α → α}

/-- **The loop invariant.** A turn keeps `acc * base ^ y`, with `y / 2` bits left after it. -/
theorem step_spec (hf : IsMulHom f mul) (y : ℕ) (acc base : α) :
    f (step mul y acc base).1 * f (step mul y acc base).2 ^ (y / 2) = f acc * f base ^ y := by
  have hsq : f (mul base base) ^ (y / 2) = f base ^ (2 * (y / 2)) := by
    rw [hf, ← sq, ← pow_mul]
  -- `y` is `2 * (y / 2)` plus its low bit
  have hy := Nat.div_add_mod y 2
  rcases Nat.mod_two_eq_zero_or_one y with h | h
  · simp only [step, h, Nat.zero_ne_one, if_false, hsq]
    rw [h, add_zero] at hy
    rw [hy]
  · simp only [step, h, if_true, hf acc base, hsq]
    rw [h] at hy
    conv_rhs => rw [← hy, pow_succ]
    ac_rfl

/-- The whole loop: turns until `y` is 0. -/
def loop (mul : α → α → α) (acc base : α) (y : ℕ) : α × α :=
  if y = 0 then (acc, base)
  else loop mul (step mul y acc base).1 (step mul y acc base).2 (y / 2)
termination_by y
decreasing_by omega

theorem loop_zero (acc base : α) : loop mul acc base 0 = (acc, base) := by
  rw [loop, if_pos rfl]

theorem loop_of_ne_zero {y : ℕ} (hy : y ≠ 0) (acc base : α) :
    loop mul acc base y = loop mul (step mul y acc base).1 (step mul y acc base).2 (y / 2) := by
  rw [loop, if_neg hy]

/-- **The loop computes `acc * base ^ y`.** -/
theorem loop_spec (hf : IsMulHom f mul) (acc base : α) (y : ℕ) :
    f (loop mul acc base y).1 = f acc * f base ^ y := by
  induction y using Nat.strong_induction_on generalizing acc base with
  | _ y ih =>
    rcases Nat.eq_zero_or_pos y with rfl | hy
    · rw [loop_zero, pow_zero, mul_one]
    · rw [loop_of_ne_zero (Nat.pos_iff_ne_zero.mp hy),
        ih (y / 2) (Nat.div_lt_self hy Nat.one_lt_two), step_spec hf]

/-- If every product of two values of `Q` lands in `P ⊆ Q`, a loop started in `Q` ends with an
accumulator in `P`, or with the one it started with: it may never multiply into it. -/
theorem loop_mem {P Q : α → Prop} (hPQ : ∀ a, P a → Q a)
    (hmul : ∀ a b, Q a → Q b → P (mul a b)) {acc base : α} (ha : Q acc) (hb : Q base)
    (y : ℕ) : P (loop mul acc base y).1 ∨ (loop mul acc base y).1 = acc := by
  induction y using Nat.strong_induction_on generalizing acc base with
  | _ y ih =>
    rcases Nat.eq_zero_or_pos y with rfl | hy
    · exact .inr (by rw [loop_zero])
    · have hbase : Q (step mul y acc base).2 := hPQ _ (hmul _ _ hb hb)
      -- the turn either multiplies into the accumulator, which puts it in `P`, or leaves it
      have hacc : P (step mul y acc base).1 ∨ (step mul y acc base).1 = acc := by
        rw [step]
        split
        · exact .inl (hmul _ _ ha hb)
        · exact .inr rfl
      rw [loop_of_ne_zero (Nat.pos_iff_ne_zero.mp hy)]
      rcases hacc with hacc | hacc
      · refine .inl ((ih (y / 2) (Nat.div_lt_self hy Nat.one_lt_two) (hPQ _ hacc) hbase).elim
          id fun h => ?_)
        rw [h]
        exact hacc
      · have h := ih (y / 2) (Nat.div_lt_self hy Nat.one_lt_two) (hacc ▸ ha) hbase
        rw [hacc] at h ⊢
        exact h

end BinaryPow
