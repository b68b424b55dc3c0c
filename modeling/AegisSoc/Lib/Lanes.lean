/-
Words as sequences of equal lanes (bytes of a line, elements of a vector register), lane 0 in the low bits.

- `lane`: one lane of a word;
- `ofLanes`: the word with given lanes;
- `patch`: a word with some of its lanes replaced, the effect of a masked store.
-/
import Mathlib.Data.BitVec
import Mathlib.Tactic

namespace AegisSoc.Lanes

variable {n w : ℕ}

/-- lane `k` of `w` bits -/
def lane (w : ℕ) (x : BitVec n) (k : ℕ) : BitVec w := x.extractLsb' (w * k) w

/-- the `n`-bit word whose lanes are `f 0, f 1, …` -/
def ofLanes (n : ℕ) {w : ℕ} (f : ℕ → BitVec w) : BitVec n :=
  (BitVec.ofBoolListLE ((List.range n).map fun b => (f (b / w)).getLsbD (b % w))).setWidth n

/-- `x` with the lanes that `p` gives replaced -/
def patch (x : BitVec n) (p : ℕ → Option (BitVec w)) : BitVec n := ofLanes n fun k => (p k).getD (lane w x k)

theorem getLsbD_lane (x : BitVec n) (k b : ℕ) : (lane w x k).getLsbD b = (decide (b < w) && x.getLsbD (w * k + b)) := by
  simp [lane]

theorem getLsbD_ofLanes (f : ℕ → BitVec w) {b : ℕ} (hb : b < n) :
    (ofLanes n f).getLsbD b = (f (b / w)).getLsbD (b % w) := by
  rw [ofLanes, BitVec.getLsbD_setWidth, BitVec.getLsbD_ofBoolListLE]
  simp [hb]

theorem lane_ofLanes (f : ℕ → BitVec w) {k : ℕ} (hk : w * k + w ≤ n) : lane w (ofLanes n f) k = f k := by
  apply BitVec.eq_of_getLsbD_eq
  intro b hb
  have hw : 0 < w := by omega
  rw [getLsbD_lane, getLsbD_ofLanes f (by omega), Nat.mul_add_div hw, Nat.mul_add_mod, Nat.div_eq_of_lt hb,
    Nat.mod_eq_of_lt hb]
  simp [hb]

theorem lane_patch (x : BitVec n) (p : ℕ → Option (BitVec w)) {k : ℕ} (hk : w * k + w ≤ n) :
    lane w (patch x p) k = (p k).getD (lane w x k) :=
  lane_ofLanes _ hk

theorem getLsbD_patch (x : BitVec n) (p : ℕ → Option (BitVec w)) {b : ℕ} (hb : b < n) (hw : 0 < w) :
    (patch x p).getLsbD b = match p (b / w) with
      | some y => y.getLsbD (b % w)
      | none => x.getLsbD b := by
  rw [patch, getLsbD_ofLanes _ hb]
  cases p (b / w) with
  | some y => rfl
  | none => simp only [Option.getD_none, getLsbD_lane, Nat.mod_lt _ hw, Nat.div_add_mod, decide_true, Bool.true_and]

end AegisSoc.Lanes
