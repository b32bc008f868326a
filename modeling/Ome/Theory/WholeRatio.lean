/-
# Ome.Theory.WholeRatio — the smallest whole numbers in a given ratio

Rationals are in the ratio of whole numbers when they are those numbers of one
positive unit.  `SmallestRatio` is the least such list, member by member; there is
at most one, and it does not depend on the unit the values are given in.  A list in
ratio with no common divisor is the smallest (`smallestRatio_of_coprime`): the unit
of any other list divides its own.
-/
import Mathlib.Data.List.Forall2
import Mathlib.Data.Rat.Cast.Order

namespace Ome.Theory

open List

set_option autoImplicit false

/-- The values are these whole numbers of a unit. -/
def InRatio (vs : List ℚ) (ns : List Nat) (unit : ℚ) : Prop :=
  0 < unit ∧ vs = ns.map fun n : Nat => unit * (n : ℚ)

structure SmallestRatio (vs : List ℚ) (ns : List Nat) : Prop where
  inRatio : ∃ unit, InRatio vs ns unit
  least : ∀ ms unit, InRatio vs ms unit → List.Forall₂ (· ≤ ·) ns ms

namespace SmallestRatio

variable {vs : List ℚ} {ns ms : List Nat}

theorem unique (first : SmallestRatio vs ns) (second : SmallestRatio vs ms) : ns = ms := by
  obtain ⟨unit, inRatio⟩ := first.inRatio
  obtain ⟨unit', inRatio'⟩ := second.inRatio
  have below := first.least ms unit' inRatio'
  have above := second.least ns unit inRatio
  clear first second inRatio inRatio'
  induction below with
  | nil => rfl
  | cons le _ ih =>
    cases above with
    | cons ge rest => rw [Nat.le_antisymm le ge, ih rest]

/-- The unit of the values decides nothing. -/
theorem scale (smallest : SmallestRatio vs ns) {factor : ℚ} (positive : 0 < factor) :
    SmallestRatio (vs.map (factor * ·)) ns := by
  obtain ⟨unit, positiveUnit, given⟩ := smallest.inRatio
  refine ⟨⟨factor * unit, mul_pos positive positiveUnit, ?_⟩, fun ms unit' inRatio => ?_⟩
  · rw [given, map_map]
    refine map_congr_left fun n _ => ?_
    exact (mul_assoc factor unit n).symm
  · refine smallest.least ms (factor⁻¹ * unit') ⟨mul_pos (inv_pos.mpr positive) inRatio.1, ?_⟩
    have back : vs = (vs.map (factor * ·)).map (factor⁻¹ * ·) := by
      rw [map_map]
      refine (map_congr_left fun v _ => ?_).trans (map_id vs) |>.symm
      exact inv_mul_cancel_left₀ positive.ne' v
    rw [back, inRatio.2, map_map]
    refine map_congr_left fun n _ => ?_
    exact (mul_assoc factor⁻¹ unit' n).symm

end SmallestRatio

theorem smallestRatio_zero {vs : List ℚ} (zero : ∀ v ∈ vs, v = 0) :
    SmallestRatio vs (vs.map fun _ => 0) := by
  refine ⟨⟨1, one_pos, ?_⟩, fun ms unit inRatio => ?_⟩
  · rw [map_map]
    refine ((map_congr_left fun v member => ?_).trans (map_id vs)).symm
    simp [zero v member]
  · have length : vs.length = ms.length := by rw [inRatio.2, length_map]
    clear zero inRatio
    induction vs generalizing ms with
    | nil => cases ms with
      | nil => exact .nil
      | cons m ms => cases length
    | cons v vs ih => cases ms with
      | nil => cases length
      | cons m ms => exact .cons (Nat.zero_le m) (ih ms (Nat.succ.inj length))

/-- A rational that takes whole numbers without a common divisor to whole numbers is
whole. -/
theorem whole_of_coprime {ns : List Nat} (coprime : ∀ d, (∀ n ∈ ns, d ∣ n) → d = 1) {q : ℚ}
    (positive : 0 < q) (whole : ∀ n ∈ ns, ∃ m : Nat, (m : ℚ) = q * n) :
    ∃ k : Nat, 0 < k ∧ q = k := by
  have divides : ∀ n ∈ ns, q.den ∣ n := by
    intro n member
    obtain ⟨m, equal⟩ := whole n member
    have cross : (m : Int) * q.den = q.num * n := by
      have scaled : (m : ℚ) * q.den = q.num * n := by
        rw [equal, mul_right_comm, Rat.mul_den_eq_num]
      exact_mod_cast scaled
    have factor : (q.den : Int) ∣ q.num * n := ⟨m, by rw [← cross, mul_comm]⟩
    have apart : Int.gcd q.den q.num = 1 := by
      rw [Int.gcd_comm]
      exact q.reduced
    exact Int.natCast_dvd_natCast.mp (Int.dvd_of_dvd_mul_right_of_gcd_one factor apart)
  have unit := coprime q.den divides
  have above : 0 < q.num := Rat.num_pos.mpr positive
  refine ⟨q.num.toNat, by omega, ?_⟩
  have natural : ((q.num.toNat : Nat) : Int) = q.num := Int.toNat_of_nonneg above.le
  calc q = q.num / q.den := (Rat.num_div_den q).symm
    _ = (q.num : ℚ) := by rw [unit, Nat.cast_one, div_one]
    _ = q.num.toNat := by exact_mod_cast natural.symm

/-- Whole numbers without a common divisor are the smallest in their ratio. -/
theorem smallestRatio_of_coprime {vs : List ℚ} {ns : List Nat} {unit : ℚ}
    (inRatio : InRatio vs ns unit) (coprime : ∀ d, (∀ n ∈ ns, d ∣ n) → d = 1) :
    SmallestRatio vs ns := by
  refine ⟨⟨unit, inRatio⟩, fun ms unit' other => ?_⟩
  have equal : List.Forall₂ (fun n m : Nat => (m : ℚ) = unit / unit' * n) ns ms := by
    have values : ns.map (fun n : Nat => unit * (n : ℚ)) = ms.map fun m : Nat => unit' * (m : ℚ) :=
      inRatio.2.symm.trans other.2
    rw [← forall₂_eq_eq_eq, forall₂_map_left_iff, forall₂_map_right_iff] at values
    refine values.imp fun n m same => ?_
    have nonzero := other.1.ne'
    rw [div_mul_eq_mul_div, same, mul_div_cancel_left₀ _ nonzero]
  have whole : ∀ n ∈ ns, ∃ m : Nat, (m : ℚ) = unit / unit' * n := by
    clear inRatio other coprime
    induction equal with
    | nil => simp
    | cons same _ ih =>
      rw [forall_mem_cons]
      exact ⟨⟨_, same⟩, ih⟩
  obtain ⟨k, positive, quotient⟩ := whole_of_coprime coprime (div_pos inRatio.1 other.1) whole
  refine equal.imp fun n m same => ?_
  rw [quotient] at same
  have product : m = k * n := by exact_mod_cast same
  exact product ▸ Nat.le_mul_of_pos_left n positive

/-! ## Reduction over a common denominator -/

/-- The loop that multiplies the denominators up. -/
def commonDenominator (vs : List ℚ) : Nat :=
  vs.foldl (fun d v => d / Nat.gcd d v.den * v.den) 1

theorem commonDenominator_spec (vs : List ℚ) :
    0 < commonDenominator vs ∧ ∀ v ∈ vs, v.den ∣ commonDenominator vs := by
  have run : ∀ (vs : List ℚ) (d : Nat), 0 < d →
      let e := vs.foldl (fun d v => d / Nat.gcd d v.den * v.den) d
      0 < e ∧ d ∣ e ∧ ∀ v ∈ vs, v.den ∣ e := by
    intro vs
    induction vs with
    | nil => simp
    | cons v rest ih =>
      intro d positive
      have lcm : d / Nat.gcd d v.den * v.den = Nat.lcm d v.den := by
        show _ = d * v.den / Nat.gcd d v.den
        rw [Nat.div_mul_right_comm (Nat.gcd_dvd_left d v.den)]
      rw [foldl_cons, lcm]
      obtain ⟨above, multiple, all⟩ := ih _ (Nat.lcm_pos positive v.den_pos)
      refine ⟨above, (Nat.dvd_lcm_left d v.den).trans multiple, ?_⟩
      rw [forall_mem_cons]
      exact ⟨(Nat.dvd_lcm_right d v.den).trans multiple, all⟩
  obtain ⟨positive, -, all⟩ := run vs 1 one_pos
  exact ⟨positive, all⟩

/-- The loop that takes the greatest common divisor. -/
def gcdAll (rs : List Int) : Nat := rs.foldl (fun g r => Int.gcd g r) 0

theorem dvd_gcdAll {rs : List Int} {d : Nat} : d ∣ gcdAll rs ↔ ∀ r ∈ rs, (d : Int) ∣ r := by
  have run : ∀ (rs : List Int) (g : Nat),
      d ∣ rs.foldl (fun g r => Int.gcd g r) g ↔ d ∣ g ∧ ∀ r ∈ rs, (d : Int) ∣ r := by
    intro rs
    induction rs with
    | nil => simp
    | cons r rest ih =>
      intro g
      rw [foldl_cons, ih, Int.dvd_gcd_iff, Int.natCast_dvd_natCast, forall_mem_cons,
        and_assoc]
  rw [gcdAll, run]
  simp

/-- The values as whole numbers of `1 / d`. -/
def overDenominator (vs : List ℚ) (d : Nat) : List Int :=
  vs.map fun v => v.num * ((d / v.den : Nat) : Int)

theorem overDenominator_cast {v : ℚ} {d : Nat} (whole : v.den ∣ d) :
    ((v.num * ((d / v.den : Nat) : Int) : Int) : ℚ) = v * d := by
  obtain ⟨k, rfl⟩ := whole
  rw [Nat.mul_div_cancel_left k v.den_pos, Int.cast_mul, Int.cast_natCast, Nat.cast_mul,
    ← mul_assoc, Rat.mul_den_eq_num]

theorem overDenominator_nonneg {vs : List ℚ} (nonneg : ∀ v ∈ vs, 0 ≤ v) (d : Nat) :
    ∀ r ∈ overDenominator vs d, 0 ≤ r := by
  rw [overDenominator, forall_mem_map]
  intro v member
  exact mul_nonneg (Rat.num_nonneg.mpr (nonneg v member)) (Int.natCast_nonneg _)

section Reduced

variable {vs : List ℚ} {d : Nat} (nonneg : ∀ v ∈ vs, 0 ≤ v) (positive : 0 < d)
  (whole : ∀ v ∈ vs, v.den ∣ d)

include whole positive

theorem gcdAll_eq_zero : gcdAll (overDenominator vs d) = 0 ↔ ∀ v ∈ vs, v = 0 := by
  rw [← Nat.zero_dvd, dvd_gcdAll, overDenominator, forall_mem_map]
  refine forall₂_congr fun v member => ?_
  rw [Nat.cast_zero, zero_dvd_iff, ← Int.cast_eq_zero (α := ℚ),
    overDenominator_cast (whole v member), mul_eq_zero,
    or_iff_left (Nat.cast_ne_zero.mpr positive.ne')]

include nonneg

/-- **Divided by what they have in common, the values over a common denominator are
the smallest whole numbers in their ratio.** -/
theorem smallestRatio_reduced (some : gcdAll (overDenominator vs d) ≠ 0) :
    SmallestRatio vs ((overDenominator vs d).map fun r =>
      (r.tdiv (gcdAll (overDenominator vs d))).toNat) := by
  generalize common : gcdAll (overDenominator vs d) = g at some
  have divides : ∀ r ∈ overDenominator vs d, (g : Int) ∣ r :=
    dvd_gcdAll.mp (common ▸ Nat.dvd_refl _)
  have above := overDenominator_nonneg nonneg d
  have reduced : ∀ r ∈ overDenominator vs d, ((r.tdiv g).toNat : Int) * g = r := by
    intro r member
    rw [Int.toNat_of_nonneg (Int.tdiv_nonneg (above r member) (Int.natCast_nonneg g)),
      Int.tdiv_mul_cancel (divides r member)]
  have inRatio : InRatio vs ((overDenominator vs d).map fun r => (r.tdiv g).toNat) (g / d) := by
    refine ⟨div_pos (Nat.cast_pos.mpr (Nat.pos_of_ne_zero some)) (Nat.cast_pos.mpr positive), ?_⟩
    rw [overDenominator, map_map, map_map]
    refine ((map_congr_left fun v member => ?_).trans (map_id vs)).symm
    have back : (((v.num * ((d / v.den : Nat) : Int)).tdiv g).toNat : ℚ) * g = v * d := by
      rw [← overDenominator_cast (whole v member)]
      exact_mod_cast reduced _ (mem_map_of_mem member)
    have nonzero : (d : ℚ) ≠ 0 := Nat.cast_ne_zero.mpr positive.ne'
    rw [Function.comp_apply, Function.comp_apply, div_mul_eq_mul_div, mul_comm (g : ℚ), back,
      mul_div_cancel_right₀ v nonzero]
    rfl
  refine smallestRatio_of_coprime inRatio fun e all => ?_
  have multiple : e * g ∣ 1 * g := by
    rw [Nat.one_mul]
    conv_rhs => rw [← common]
    refine dvd_gcdAll.mpr fun r member => ?_
    rw [← reduced r member, Nat.cast_mul]
    exact mul_dvd_mul_right (Int.natCast_dvd_natCast.mpr (all _ (mem_map_of_mem member))) _
  exact Nat.dvd_one.mp (Nat.dvd_of_mul_dvd_mul_right (Nat.pos_of_ne_zero some) multiple)

end Reduced

end Ome.Theory
